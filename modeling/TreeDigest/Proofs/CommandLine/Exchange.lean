import TreeDigest.Proofs.Check.Domains
import TreeDigest.Proofs.Check.Matrix
import TreeDigest.Proofs.CommandLine.Hash

/-!
# Documents from one command to another

What a codec writes for a generated document, the others of its format read with the same digest.
Between two commands the octets go through a file, and the digest is said on both sides: by the
command that writes the document, after it is written, and by the one that reads the file, before
the path.
-/

namespace TreeDigest

variable {o : FoldOptions} {writer reader : Codec}

/-- **A generated document is carried by every codec that writes it.** -/
theorem Codec.carries_of_encode {size : Nat} {seed : UInt64} {e : Encoded}
    (hwriter : writer ∈ Codec.all) (hok : writer.encode (Generator.generate size seed) o = .ok e) :
    writer.Carries (Generator.generate size seed) o := by
  obtain ⟨pairs, htree, hportable, -, -⟩ := Generator.generate_eq size seed
  rw [htree] at hok ⊢
  obtain ⟨form, htakes⟩ := Codec.encode_takes hwriter
  obtain ⟨⟨hdepth, -, hsizes⟩, -⟩ := (htakes _ _ _).mp hok
  exact carries hwriter hportable hsizes hdepth

/-- No limit from 7 on is too low for a generated document. -/
theorem Codec.encode_generate {size : Nat} {seed : UInt64} (hwriter : writer ∈ Codec.all)
    (hsizes : writer.TakesSizes (Generator.generate size seed)) (hdepth : 7 ≤ o.maxDepth) :
    ∃ e, writer.encode (Generator.generate size seed) o = .ok e := by
  obtain ⟨pairs, htree, hportable, hnesting, -⟩ := Generator.generate_eq size seed
  rw [htree] at hsizes ⊢
  have hlimit : (Tree.map pairs).depth ≤ o.depthLimit :=
    Nat.le_trans hnesting (Nat.le_min.mpr ⟨hdepth, by decide⟩)
  obtain ⟨bytes, hencode, -⟩ := (carries hwriter hportable hsizes hlimit).exchange
  exact ⟨_, hencode⟩

namespace CommandLine

variable {g : GenerateCommand} {h : HashCommand} {path : String} {disk disk' : Disk}

theorem mem_of_ofName? {name : String} {codec : Codec} (h : Codec.ofName? name = some codec) :
    codec ∈ Codec.all := List.mem_of_find?_eq_some h

/-- A command that writes a generated document to a file and one that reads this file, with the same
parameters and with codecs of one format. -/
structure Paired (g : GenerateCommand) (h : HashCommand) (writer reader : Codec) (path : String) :
    Prop where
  writer_eq : Codec.ofName? g.codec = some writer
  reader_eq : Codec.ofName? h.codec = some reader
  format_eq : reader.format = writer.format
  out_eq : g.out = some path
  inputs_eq : h.inputs = [path]
  literal : isPattern path = false
  fold_eq : h.fold = g.fold
  depth_le : ∀ depth ∈ g.fold.maxDepth, 7 ≤ depth ∧ depth ≤ FoldOptions.depthCeiling

/-- The parameters that two such commands come to. -/
theorem Paired.apply_eq (hpair : Paired g h writer reader path) :
    g.fold.apply {} = .ok (g.fold.over {}) ∧ 7 ≤ (g.fold.over {}).maxDepth := by
  have hdepth : 7 ≤ (g.fold.over {}).maxDepth ∧
      (g.fold.over {}).maxDepth ≤ FoldOptions.depthCeiling := by
    unfold FoldChoices.over
    cases hchosen : g.fold.maxDepth with
    | none => exact ⟨show 7 ≤ ({} : FoldOptions).maxDepth by decide,
        show ({} : FoldOptions).maxDepth ≤ FoldOptions.depthCeiling by decide⟩
    | some depth => exact hpair.depth_le depth hchosen
  exact ⟨FoldChoices.apply_ok_iff.mpr ⟨hdepth.2, rfl⟩, hdepth.1⟩

/-- If its document has sizes that can be written and the file can be, a command writes it. -/
theorem Paired.generate_gives (hpair : Paired g h writer reader path)
    (hsizes : writer.TakesSizes (Generator.generate g.size g.seed))
    (hwrites : ∀ octets, ∃ disk', Gives (writeOut path octets) disk () disk') :
    ∃ disk', Gives g.run disk true disk' := by
  obtain ⟨hfold, hdepth⟩ := hpair.apply_eq
  obtain ⟨e, hencode⟩ := Codec.encode_generate (mem_of_ofName? hpair.writer_eq) hsizes hdepth
  obtain ⟨disk', hwrite⟩ := hwrites e.bytes
  refine ⟨{ disk' with reported := (e.digest.toHex ++ "\n") :: disk'.reported }, ?_⟩
  refine .bind (Gives.orStop_iff.mpr ⟨codecOf_ok_iff.mpr hpair.writer_eq, rfl⟩) ?_
  refine .bind (Gives.orStop_iff.mpr ⟨hfold, rfl⟩) ?_
  refine .bind (Gives.orStop_iff.mpr ⟨hencode, rfl⟩) ?_
  rw [hpair.out_eq]
  exact .bind hwrite (.bind (Gives.report_iff.mpr rfl) .pure)

/-- What a command that has written a document has done: the file holds what the codec wrote, and
its digest was reported. -/
theorem Paired.of_generate (hpair : Paired g h writer reader path)
    (hruns : Gives g.run disk true disk') : ∃ e : Encoded,
    writer.encode (Generator.generate g.size g.seed) (g.fold.over {}) = .ok e ∧
    disk'.load path = .ok e.bytes ∧ disk'.reported = (e.digest.toHex ++ "\n") :: disk.reported := by
  obtain ⟨codec, _, hstop, hruns⟩ := Gives.bind_iff.mp hruns
  obtain ⟨hcodec, rfl⟩ := Gives.orStop_iff.mp hstop
  obtain rfl : writer = codec :=
    Option.some.inj (hpair.writer_eq.symm.trans (codecOf_ok_iff.mp hcodec))
  obtain ⟨o, _, hstop, hruns⟩ := Gives.bind_iff.mp hruns
  obtain ⟨hfold, rfl⟩ := Gives.orStop_iff.mp hstop
  obtain ⟨-, rfl⟩ := FoldChoices.apply_ok_iff.mp hfold
  obtain ⟨e, _, hstop, hruns⟩ := Gives.bind_iff.mp hruns
  obtain ⟨hencode, rfl⟩ := Gives.orStop_iff.mp hstop
  rw [hpair.out_eq] at hruns
  obtain ⟨_, disk₁, hwrite, hruns⟩ := Gives.bind_iff.mp hruns
  obtain ⟨files, hload, rfl⟩ := Gives.writeOut_ok hwrite
  obtain ⟨_, disk₂, hreport, hruns⟩ := Gives.bind_iff.mp hruns
  obtain ⟨-, rfl⟩ := Gives.pure_iff.mp hruns
  obtain rfl := Gives.report_iff.mp hreport
  exact ⟨e, hencode, hload, rfl⟩

/-- After a document was written, the command that reads the file prints the digest that was
reported. -/
theorem Paired.hash_agrees (hpair : Paired g h writer reader path)
    (hruns : Gives g.run disk true disk') : ∃ digest : Digest,
    disk'.reported = (digest.toHex ++ "\n") :: disk.reported ∧
    ∃ disk'', Gives h.run disk' true disk'' ∧
      disk''.printed = Utf8.ofText (digest.toHex ++ "  " ++ path ++ "\n") :: disk'.printed ∧
      disk''.reported = disk'.reported := by
  obtain ⟨e, hencode, hload, hreported⟩ := hpair.of_generate hruns
  obtain ⟨bytes, hbytes, hreaders⟩ :=
    (Codec.carries_of_encode (mem_of_ofName? hpair.writer_eq) hencode).exchange
  obtain rfl := Except.ok.inj (hencode.symm.trans hbytes)
  have hreader : reader ∈ Codec.ofFormat writer.format :=
    List.mem_filter.mpr ⟨mem_of_ofName? hpair.reader_eq, beq_iff_eq.mpr hpair.format_eq⟩
  have hanswer := answer_ok_iff.mpr ⟨bytes, hload, hreaders reader hreader⟩
  have hfold : h.fold.apply {} = .ok (g.fold.over {}) := by rw [hpair.fold_eq, hpair.apply_eq.1]
  have hliteral : ∀ input ∈ h.inputs, isPattern input = false := by
    rw [hpair.inputs_eq]
    exact List.forall_mem_singleton.mpr hpair.literal
  obtain ⟨passed, disk'', hgives, hanswers⟩ :=
    hash_gives hpair.reader_eq hfold hliteral disk'
  rw [hpair.inputs_eq] at hanswers
  have hpassed : passed = true := hanswers.passed_iff.mpr <|
    List.forall_mem_singleton.mpr ⟨bytes, _, hload, hreaders reader hreader⟩
  have htells := hanswers.tells
  rw [List.filterMap_cons_some (digestLine_of_ok hanswer),
    List.filterMap_cons_none (complaint_of_ok hanswer)] at htells
  exact ⟨_, hreported, disk'', hpassed ▸ hgives, htells.printed_eq, htells.reported_eq⟩

/--
**What is written as a document is read with its digest, and no file is lost among others.** A
document that was generated into a file is read by the codecs of the same format with the digest
that was reported when it was written, and it is written if the format has room for its sizes and
the disk lets the file be written. And whichever files there are to be read, each is answered for.
-/
theorem files_are_told_by_their_digests (g : GenerateCommand) (h : HashCommand) (disk : Disk) :
    (∀ writer reader path, Paired g h writer reader path →
      (writer.TakesSizes (Generator.generate g.size g.seed) →
        (∀ octets, ∃ disk', Gives (writeOut path octets) disk () disk') →
          ∃ disk', Gives g.run disk true disk') ∧
      ∀ disk', Gives g.run disk true disk' → ∃ digest : Digest,
        disk'.reported = (digest.toHex ++ "\n") :: disk.reported ∧
        ∃ disk'', Gives h.run disk' true disk'' ∧
          disk''.printed = Utf8.ofText (digest.toHex ++ "  " ++ path ++ "\n") :: disk'.printed ∧
          disk''.reported = disk'.reported) ∧
    ∀ codec o, Codec.ofName? h.codec = some codec → h.fold.apply {} = .ok o →
      (∀ input ∈ h.inputs, isPattern input = false) →
        ∃ passed disk', Gives h.run disk passed disk' ∧
          Answers codec o h.inputs disk passed disk' := by
  constructor
  · intro writer reader path hpair
    exact ⟨hpair.generate_gives, fun disk' => hpair.hash_agrees⟩
  · intro codec o hcodec hfold hinputs
    exact hash_gives hcodec hfold hinputs disk

/-- A generated document of a size that is checked by default has lengths below 32 bits. -/
theorem short_of_size {size : Nat} {seed : UInt64} {t : Tree} (h : size ≤ 10000)
    (ht : t = Generator.generate size seed) : t.Short := by
  have hfits : Plan.Fits { sizes := [size], seed := seed } :=
    Plan.fits_of_sizes (List.forall_mem_singleton.mpr h)
  exact ht ▸ hfits.lengths size (List.mem_singleton_self size)

section Case

/-- A seed that is not the default one, and the least limit that no document is too deep for. -/
def seeded : FoldChoices := { seed := some 9, maxDepth := some 7 }

/-- Writes a document of three nodes in MessagePack. -/
def seededGenerate : GenerateCommand :=
  { size := 3, codec := "msgpack-wide", out := some "out/a.mp", fold := seeded }

/-- Reads that file with another codec. -/
def seededHash : HashCommand := { codec := "msgpack-node", inputs := ["out/a.mp"], fold := seeded }

/-- Reads a file that is cut off, one that is whole, and one that is not there. -/
def mixedHash : HashCommand :=
  { codec := "msgpack-node", inputs := ["cut.mp", "whole.mp", "none.mp"] }

def mixedDisk : Disk := .ofFiles [("cut.mp", [0x92, 0x01]), ("whole.mp", [0x01])]

/-- The digest that is reported is the one that is printed, and of three files one has a digest. -/
theorem files_are_told_by_their_digests_seeded :
    (∃ disk', Gives seededGenerate.run .empty true disk' ∧ ∃ digest : Digest,
      disk'.reported = [digest.toHex ++ "\n"] ∧
      ∃ disk'', Gives seededHash.run disk' true disk'' ∧
        disk''.printed =
          Utf8.ofText (digest.toHex ++ "  " ++ "out/a.mp" ++ "\n") :: disk'.printed) ∧
    ∃ disk', Gives mixedHash.run mixedDisk false disk' ∧
      Answers MessagePack.node {} mixedHash.inputs mixedDisk false disk' := by
  constructor
  · have hpair : Paired seededGenerate seededHash MessagePack.wide MessagePack.node "out/a.mp" :=
      ⟨rfl, rfl, rfl, rfl, rfl, by decide, rfl,
        fun depth hdepth => by cases hdepth; decide⟩
    have hwrites : ∀ octets, ∃ disk', Gives (writeOut "out/a.mp" octets) .empty () disk' :=
      fun octets => ⟨_, rfl⟩
    obtain ⟨hgenerate, hhash⟩ :=
      (files_are_told_by_their_digests seededGenerate seededHash .empty).1 _ _ _ hpair
    -- the document is named, so that it is not computed
    obtain ⟨t, ht⟩ : ∃ t, t = Generator.generate seededGenerate.size seededGenerate.seed :=
      ⟨_, rfl⟩
    rw [← ht] at hgenerate
    obtain ⟨disk', hruns⟩ := hgenerate (short_of_size (by decide) ht) hwrites
    obtain ⟨digest, hreported, disk'', hreads, hprinted, -⟩ := hhash disk' hruns
    exact ⟨disk', hruns, digest, hreported, disk'', hreads, hprinted⟩
  · obtain ⟨passed, disk', hruns, hanswers⟩ :=
      (files_are_told_by_their_digests seededGenerate mixedHash mixedDisk).2 MessagePack.node {}
        rfl rfl (by decide)
    obtain rfl : passed = false := by
      refine Bool.eq_false_iff.mpr fun hpassed => ?_
      obtain ⟨octets, digest, hload, -⟩ := hanswers.passed_iff.mp hpassed "none.mp" (by decide)
      have hmissing : (mixedDisk.load "none.mp").toOption = none := by decide +kernel
      rw [hload] at hmissing
      cases hmissing
    exact ⟨disk', hruns, hanswers⟩

end Case

end CommandLine

end TreeDigest
