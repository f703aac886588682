import TreeDigest.CommandLine.Disk
import TreeDigest.Main
import TreeDigest.Proofs.Fold.Acceptance
import TreeDigest.Proofs.Fold.Detection
import TreeDigest.Proofs.Fold.Reachable
import TreeDigest.Proofs.MessagePack.Counts
import TreeDigest.Proofs.MessagePack.Spelled
import TreeDigest.Proofs.Json.Agreement
import TreeDigest.Proofs.Json.Encoders
import TreeDigest.Proofs.Json.Inverse
import TreeDigest.Proofs.Bson.Lengths
import TreeDigest.Proofs.Check.Amplification
import TreeDigest.Proofs.Check.Claims
import TreeDigest.Proofs.Check.Domains
import TreeDigest.Proofs.Check.Integers
import TreeDigest.Proofs.Check.Leniency
import TreeDigest.Proofs.Check.Matrix
import TreeDigest.Proofs.Check.Prefixes
import TreeDigest.Proofs.Check.Report
import TreeDigest.Proofs.Check.Sides
import TreeDigest.Proofs.Check.Signedness
import TreeDigest.Proofs.Generator.Contract
import TreeDigest.Proofs.Settings.Front
import TreeDigest.Proofs.CommandLine.Check
import TreeDigest.Proofs.CommandLine.Exchange
