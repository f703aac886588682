import TreeDigest.Proofs.Input.Claims
import TreeDigest.Proofs.Ubjson.Accepts

/-!
# UBJSON claims need not be checked

The decoder once more, told by an argument how it checks what a head claims. The values of a
container may stand without their marker, and then it is not plain that each takes an octet:
it does since a marker can only be declared if it has a payload, and since a container that
is such a value has a head of its own or is closed by a marker. All that is known of entries
that were gone over, so nothing has to be said here of how they are read.

One octet can be declared that no value has. Entries of it are never read to an end.
-/

namespace TreeDigest.Ubjson

open Steps (Concurs)
open Decoder (Brings)
open Folder (Stands)

variable {levels limit depth n : Nat} {shape : Shape} {b marker : UInt8} {offset : Nat}
  {d d' : Decoding Cursor}

/-! ## A decoder that is told how to check -/

/-- Hands the entries of a container to the folder and checks claims in a way that is given. -/
def entriesWith (check : Nat → Reader Unit) (shape : Shape) (heading : Heading)
    (payload : UInt8 → Nat → Decoder Cursor Unit) : Decoder Cursor Unit := do
  match heading.count with
  | some count => do
    Decoder.read (check (count.toNat * leastEntry shape))
    match heading.shared with
    | some shared =>
      Loop.times (entry shape do payload shared (← Decoder.read Reader.offset)) count.toNat
    | none => Loop.times (entry shape (marked payload)) count.toNat
  | none => do
    let round (_ : Nat) : Decoder Cursor Bool := do
      if (← Decoder.read peekMarker) = endOctet shape then
        Decoder.read Reader.skip
        return false
      else
        entry shape (marked payload)
        return true
    Loop.rounds round 0 (← Decoder.rest)

/-- Hands what a marker announces to the folder and checks claims in a way that is given. -/
def foldMarkedWith (check : Nat → Reader Unit) (levels : Nat) (marker : UInt8) (offset : Nat) :
    Decoder Cursor Unit :=
  let container (shape : Shape) : Decoder Cursor Unit := do
    let heading ← Decoder.read heading
    Decoder.fold (beginEvent shape heading.count)
    match levels with
    | 0 => pure ()
    | levels + 1 => do
      entriesWith check shape heading (foldMarkedWith check levels)
      Decoder.fold (endEvent shape)
  match Marker.ofOctet? marker with
  | some .null => Decoder.fold .null
  | some .yes => Decoder.fold (.bool true)
  | some .no => Decoder.fold (.bool false)
  | some (.integer form) => do Decoder.fold (.int (Int64.ofInt (← Decoder.read (integerOf form))))
  | some .single => do Decoder.fold (.single (← Decoder.read (Reader.big 4)).toUInt32)
  | some .double => do Decoder.fold (.double (← Decoder.read (Reader.big 8)).toUInt64)
  | some .character => do Decoder.fold (.text (← Decoder.read (Reader.take 1)))
  | some .text => do Decoder.fold (.text (← Decoder.read text))
  | some .listStart => container .list
  | some .mapStart => container .map
  | _ => throw (.decode (.unsupportedType offset marker))

/-- The digest of an input, folded while it is read. -/
def decodeWith (check : Nat → Reader Unit) (input : Bytes) (o : FoldOptions) :
    Except Error Digest :=
  Decoder.run (Decoder.whole (marked (foldMarkedWith check o.depthLimit))) (Cursor.start input) o

/-! ## A decoder that needs what is claimed -/

theorem foldMarkedWith_need : foldMarkedWith Reader.need levels = foldMarked levels := by
  induction levels with
  | zero => rfl
  | succ levels ih =>
    funext marker offset
    rw [foldMarkedWith.eq_def, foldMarked.eq_def]
    dsimp only
    rw [ih]
    rfl

theorem decodeWith_need (input : Bytes) (o : FoldOptions) :
    decodeWith Reader.need input o = decode input o := by
  rw [decodeWith, foldMarkedWith_need]
  rfl

/-! ## What entries take -/

namespace Understands

variable {payload : UInt8 → Nat → Decoder Cursor Unit}

/-- Entries that were counted took as many octets as their container claims. -/
theorem times_le (shared : Option Marker) (h : Understands limit depth payload)
    (hd : d.folder.Stands limit depth) (hshared : ∀ m ∈ shared, m.isShareable = true)
    (hok : Loop.times (Ubjson.entry shape (valueStep payload shared)) n d = .ok () d') :
    n * leastEntry shape ≤ Decoder.left d := by
  obtain ⟨entries, bytes, es, rfl, hspells, -, hmoves, -⟩ := h.times hd hok
  have hlength := hspells.length_le hshared
  rw [Decoder.left, hmoves.takes.1, List.length_append]
  omega

/-- The same of entries whose marker was declared. -/
theorem declared_le (h : Understands limit depth payload) (hd : d.folder.Stands limit depth)
    (hb : isDeclarable b = true)
    (hok : Loop.times (Ubjson.entry shape (do payload b (← Decoder.read Reader.offset))) n d =
      .ok () d') : n * leastEntry shape ≤ Decoder.left d := by
  cases hmarker : Marker.ofOctet? b with
  | some m =>
    obtain rfl := Marker.octet_of_ofOctet? hmarker
    rw [isDeclarable, hmarker] at hb
    have hshareable : ∀ m' ∈ some m, m'.isShareable = true := by
      rintro m' ⟨⟩
      exact hb
    exact times_le (some m) h hd hshareable hok
  | none =>
    rw [h.idle hd hmarker hok, Nat.zero_mul]
    exact Nat.zero_le _

end Understands

/-! ## A decoder that trusts what is claimed -/

/-- A decoding with a number of containers open. -/
abbrev Standing (limit depth : Nat) (d : Decoding Cursor) : Prop := d.folder.Stands limit depth

section Entries

variable {payload payload' : UInt8 → Nat → Decoder Cursor Unit}

theorem marked_concurs
    (h : ∀ marker offset,
      Concurs (Standing limit depth) (payload marker offset) (payload' marker offset)) :
    Concurs (Standing limit depth) (marked payload) (marked payload') :=
  .after (Brings.reading _).after fun offset => .after (Brings.reading _).after fun marker =>
    h marker offset

theorem entry_concurs {value value' : Decoder Cursor Unit}
    (h : Concurs (Standing limit depth) value value') :
    Concurs (Standing limit depth) (entry shape value) (entry shape value') := by
  cases shape with
  | list => exact h
  | map =>
    exact .after (Brings.reading _).after fun k =>
      .after (Brings.fold Folding.key_stands).after fun _ => h

/-- Entries that are gone over alike are gone over alike whether their claim is checked or not. -/
theorem entries_concurs {heading : Heading} (hpayload : Understands limit depth payload)
    (hdeclared : ∀ b ∈ heading.shared, isDeclarable b = true)
    (h : ∀ marker offset,
      Concurs (Standing limit depth) (payload marker offset) (payload' marker offset)) :
    Concurs (Standing limit depth) (entries shape heading payload)
      (entriesWith Reader.trust shape heading payload') := by
  have hbrings : ∀ marker offset, Brings (Stands limit depth) (Stands limit depth)
      (payload marker offset) := fun _ _ => ⟨hpayload.stands⟩
  obtain ⟨shared, count⟩ := heading
  cases count with
  | some count =>
    cases shared with
    | some b =>
      have hvalue : Concurs (Standing limit depth) (do payload b (← Decoder.read Reader.offset))
          (do payload' b (← Decoder.read Reader.offset)) :=
        .after (Brings.reading _).after fun offset => h b offset
      have hkeeps : Brings (Stands limit depth) (Stands limit depth)
          (entry shape (do payload b (← Decoder.read Reader.offset))) :=
        entry_brings (.bind (.reading _) fun offset => hbrings b offset)
      exact Decoder.claimed ((entry_concurs hvalue).times hkeeps.after _) fun hd hok =>
        hpayload.declared_le hd (hdeclared b rfl) hok
    | none =>
      have hkeeps : Brings (Stands limit depth) (Stands limit depth) (entry shape (marked payload)) :=
        entry_brings (marked_brings hbrings)
      exact Decoder.claimed ((entry_concurs (marked_concurs h)).times hkeeps.after _) fun hd hok =>
        hpayload.times_le none hd nofun hok
  | none =>
    have hround : ∀ round, Concurs (Standing limit depth) (closedRound shape payload round)
        (closedRound shape payload' round) := by
      intro round
      refine .after (Brings.reading _).after fun b => ?_
      split
      · exact .refl _
      · exact .first (entry_concurs (marked_concurs h))
    have hkeeps : ∀ {round d more d'}, Standing limit depth d →
        closedRound shape payload round d = .ok more d' → Standing limit depth d' := by
      intro round d more d' hd hok
      rcases hpayload.closedRound hd hok with ⟨-, hstands, -⟩ | ⟨-, _, _, _, _, hentered⟩
      · exact hstands
      · exact hentered.stands
    exact .after Brings.rest.after fun room => .rounds hround hkeeps 0 room

end Entries

/-- A container is gone over alike if its entries are. -/
theorem container_concurs (hlimit : limit = depth + levels)
    (h : ∀ {below}, levels = below + 1 → ∀ marker offset, Concurs (Standing limit (depth + 1))
      (foldMarked below marker offset) (foldMarkedWith Reader.trust below marker offset)) :
    Concurs (Standing limit depth) (container levels shape) (do
      let heading ← Decoder.read heading
      Decoder.fold (beginEvent shape heading.count)
      match levels with
      | 0 => pure ()
      | levels + 1 => do
        entriesWith Reader.trust shape heading (foldMarkedWith Reader.trust levels)
        Decoder.fold (endEvent shape)) := by
  have hheading : ∀ {d heading d'}, Standing limit depth d →
      Decoder.read Ubjson.heading d = .ok heading d' →
      Standing limit depth d' ∧ ∀ b ∈ heading.shared, isDeclarable b = true := by
    intro d heading d' hd hok
    obtain ⟨c, hread, rfl⟩ := Decoder.reading_eq_ok_iff.mp hok
    rcases heading_ok hread with ⟨rfl, -⟩ | ⟨_, _, -, -, hdeclared, -⟩
    · exact ⟨hd, nofun⟩
    · exact ⟨hd, hdeclared⟩
  refine .after hheading fun heading => .given fun hdeclared => ?_
  cases levels with
  | zero => exact .refl _
  | succ below =>
    have hinside := foldMarked_understands (show limit = depth + 1 + below by omega)
    exact .after (fun hd hok => ((beginEvent_brings heading.count).after hd hok).2) fun _ =>
      .first (entries_concurs hinside hdeclared (h rfl))

theorem foldMarked_concurs_of (hlimit : limit = depth + levels)
    (h : ∀ {below}, levels = below + 1 → ∀ marker offset, Concurs (Standing limit (depth + 1))
      (foldMarked below marker offset) (foldMarkedWith Reader.trust below marker offset)) :
    Concurs (Standing limit depth) (foldMarked levels marker offset)
      (foldMarkedWith Reader.trust levels marker offset) := by
  have hcontainer : ∀ shape, Concurs (Standing limit depth) (container levels shape) _ :=
    fun _ => container_concurs hlimit h
  rw [foldMarkedWith.eq_def, foldMarked.eq_def]
  cases Marker.ofOctet? marker with
  | none => exact .refl _
  | some m =>
    cases m with
    | listStart => cases levels <;> exact hcontainer .list
    | mapStart => cases levels <;> exact hcontainer .map
    | _ => exact .refl _

/-- **What a marker announces is gone over alike, whether claims are checked or not.** -/
theorem foldMarked_concurs (hlimit : limit = depth + levels) (marker : UInt8) (offset : Nat) :
    Concurs (Standing limit depth) (foldMarked levels marker offset)
      (foldMarkedWith Reader.trust levels marker offset) := by
  induction levels generalizing depth marker offset with
  | zero => exact foldMarked_concurs_of hlimit nofun
  | succ levels ih =>
    refine foldMarked_concurs_of hlimit ?_
    rintro below ⟨⟩
    exact ih (by omega)

theorem decodeWith_trust {input : Bytes} {o : FoldOptions} {digest : Digest} :
    decodeWith Reader.trust input o = .ok digest ↔ decode input o = .ok digest := by
  have hlimit : o.depthLimit = 0 + o.depthLimit := (Nat.zero_add _).symm
  exact (Decoder.run_iff (.first (marked_concurs (foldMarked_concurs hlimit)))
    (Folder.stands_start o)).symm

end TreeDigest.Ubjson
