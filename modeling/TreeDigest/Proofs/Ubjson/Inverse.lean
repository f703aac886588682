import TreeDigest.Registry
import TreeDigest.Proofs.Ubjson.RoundTrip

/-!
# Writing and reading UBJSON

No reader of UBJSON builds a tree, so what is inverse to writing is what reading does
to a folder. That a form belongs to one tree only, up to the kind of its integers, is
then shown on the forms themselves: two forms that go on with something are compared
from the front, and at every place there is a reader that takes the same octets of both.

For the entries of a container this needs one thing more, where their number is not
in the head: no entry begins with the closing marker, so both containers end together.
-/

namespace TreeDigest.Ubjson

variable {framing : Framing} {t t' : Tree} {rest rest' : Bytes}

/-! ## Scalars -/

/-- The payload of a scalar, by its marker. -/
def scalarPayload : Marker → Reader Tree
  | .null => return .null
  | .yes => return .bool true
  | .no => return .bool false
  | .integer form => return .int (Int64.ofInt (← integerOf form))
  | .double => return .double (← Reader.big 8).toUInt64
  | .text => return .text (← text)
  | m => do throw (.unsupportedType (← Reader.offset) m.octet)

theorem scalarPayload_int (i : Int64) :
    (scalarPayload (.integer (IntegerForm.narrowest i))).Reads (intForm i) (.int i) := by
  have hread := (integerOf_reads i).map (g := fun n => Tree.int (Int64.ofInt n))
  rwa [Int64.ofInt_toInt] at hread

theorem scalarPayload_reads (hscalar : t.isContainer = false) (ht : Writable t) :
    (scalarPayload (markerOf t)).Reads (payloadForm framing t) (signed t) := by
  cases t with
  | list items => exact Bool.noConfusion hscalar
  | map pairs => exact Bool.noConfusion hscalar
  | null => exact .pure
  | bool b => cases b <;> exact .pure
  | int i => exact scalarPayload_int i
  | uint u =>
    rw [signed, Tree.mapIntegers, Integer.toSigned_unsigned ht]
    exact scalarPayload_int u.toInt64
  | double bits =>
    have hbits : bits.toNat < Bytes.capacity 8 := bits.toNat_lt
    have hread := (Reader.Reads.big hbits).map (g := fun n => Tree.double n.toUInt64)
    rwa [show bits.toNat.toUInt64 = bits from UInt64.ofNat_toNat] at hread
  | text octets => exact (text_reads ht).map

theorem markerOf_list (h : markerOf t = .listStart) : ∃ items, t = .list items := by
  cases t with
  | list items => exact ⟨items, rfl⟩
  | bool b => cases b <;> cases h
  | _ => cases h

theorem markerOf_map (h : markerOf t = .mapStart) : ∃ pairs, t = .map pairs := by
  cases t with
  | map pairs => exact ⟨pairs, rfl⟩
  | bool b => cases b <;> cases h
  | _ => cases h

theorem isContainer_of_markerOf (h : markerOf t = markerOf t') (hscalar : t.isContainer = false) :
    t'.isContainer = false := by
  cases t' with
  | list items =>
    obtain ⟨items, rfl⟩ := markerOf_list h
    exact hscalar
  | map pairs =>
    obtain ⟨pairs, rfl⟩ := markerOf_map h
    exact hscalar
  | _ => rfl

/-! ## Entries -/

/-- Entries that are written in the same way, up to an end that none of them begins with or
until there are as many of the one as of the other, are the same entries. -/
theorem entries_settled {γ δ : Type} {form : γ → Bytes} {value : γ → δ} {ending : Bytes}
    {xs xs' : List γ}
    (hsettled : ∀ x ∈ xs, ∀ x' ∈ xs', ∀ {rest rest'}, form x ++ rest = form x' ++ rest' →
      value x = value x' ∧ rest = rest')
    (hends : xs.length = xs'.length ∨
      ∀ x, x ∈ xs ∨ x ∈ xs' → ∀ more rest, form x ++ more ≠ ending ++ rest)
    (h : xs.flatMap form ++ ending ++ rest = xs'.flatMap form ++ ending ++ rest') :
    xs.map value = xs'.map value ∧ rest = rest' := by
  induction xs generalizing xs' with
  | nil =>
    cases xs' with
    | nil => exact ⟨rfl, List.append_cancel_left h⟩
    | cons x' xs' =>
      rcases hends with hlength | hends
      · cases hlength
      · rw [List.flatMap_cons, List.append_assoc, List.append_assoc, List.append_assoc] at h
        exact absurd h.symm (hends x' (.inr (List.mem_cons_self ..)) _ _)
  | cons x xs ih =>
    cases xs' with
    | nil =>
      rcases hends with hlength | hends
      · cases hlength
      · rw [List.flatMap_cons, List.append_assoc, List.append_assoc, List.append_assoc] at h
        exact absurd h (hends x (.inl (List.mem_cons_self ..)) _ _)
    | cons x' xs' =>
      rw [List.flatMap_cons, List.flatMap_cons, List.append_assoc, List.append_assoc,
        List.append_assoc, List.append_assoc, ← List.append_assoc (xs.flatMap form),
        ← List.append_assoc (xs'.flatMap form)] at h
      -- the first entries are settled with all the others behind them
      obtain ⟨hvalue, hothers⟩ :=
        hsettled x (List.mem_cons_self ..) x' (List.mem_cons_self ..) h
      have hrest : xs.map value = xs'.map value ∧ rest = rest' := by
        refine ih (fun y hy y' hy' => ?_) ?_ hothers
        · exact hsettled y (List.mem_cons_of_mem _ hy) y' (List.mem_cons_of_mem _ hy')
        · refine hends.imp Nat.succ.inj fun hends y hy => hends y ?_
          exact hy.imp (List.mem_cons_of_mem _) (List.mem_cons_of_mem _)
      exact ⟨by rw [List.map_cons, List.map_cons, hvalue, hrest.1], hrest.2⟩

namespace Entries

variable {γ δ : Type} {shape : Shape} {shared shared' : Option Marker} {xs xs' : List γ}
  {form form' : γ → Bytes}

/-- Heads that are written in the same way say the same. -/
theorem heading_settled {body body' : Bytes} (h : Entries framing shape shared xs form)
    (h' : Entries framing shape shared' xs' form')
    (heq : headingForm framing xs.length shared ++ body ++ rest =
      headingForm framing xs'.length shared' ++ body' ++ rest') :
    shared = shared' ∧ (framing = .counted → xs.length = xs'.length) ∧
      body ++ rest = body' ++ rest' := by
  rw [List.append_assoc, List.append_assoc _ body'] at heq
  cases framing with
  | closed => exact ⟨(h.closed rfl).trans (h'.closed rfl).symm, nofun, heq⟩
  | counted =>
    obtain ⟨hheading, hrest⟩ := (heading_counted h.length_lt h.shareable).unique
      (heading_counted h'.length_lt h'.shareable) heq
    injection hheading with hshared hcount
    injection hcount with hcount
    have hlength := congrArg UInt32.toNat hcount
    rw [Folder.toNat_length h.length_lt, Folder.toNat_length h'.length_lt] at hlength
    exact ⟨Option.map_injective (fun _ _ => octet_inj) hshared, fun _ => hlength, hrest⟩

/-- Entries behind heads that say the same are the same entries. -/
theorem settled {value : γ → δ} (h : Entries framing shape shared xs form)
    (h' : Entries framing shape shared xs' form)
    (hlength : framing = .counted → xs.length = xs'.length)
    (hsettled : ∀ x ∈ xs, ∀ x' ∈ xs', ∀ {rest rest'}, form x ++ rest = form x' ++ rest' →
      value x = value x' ∧ rest = rest')
    (heq : xs.flatMap form ++ endForm framing (endMarker shape) ++ rest =
      xs'.flatMap form ++ endForm framing (endMarker shape) ++ rest') :
    xs.map value = xs'.map value ∧ rest = rest' := by
  refine entries_settled hsettled ?_ heq
  cases framing with
  | counted => exact .inl (hlength rfl)
  | closed =>
    refine .inr fun x hx more rest hstart => ?_
    have hbegins : ∃ m, Begins m (form x) ∧ Opens m :=
      hx.elim (h.begins (h.closed rfl) x) (h'.begins (h.closed rfl) x)
    obtain ⟨m, ⟨-, tail, htail⟩, hopens⟩ := hbegins
    rw [htail] at hstart
    rw [octet_inj (List.cons.inj hstart).1] at hopens
    cases shape <;> exact hopens

end Entries

/-- Values that leave out the same marker have it. -/
theorem markerOf_shared {values values' : List Tree} {s s' : Tree} (hs : s ∈ values)
    (hs' : s' ∈ values') (hshared : sharedIn framing values = sharedIn framing values')
    (htyped : (sharedIn framing values).isSome = true) : markerOf s = markerOf s' := by
  obtain ⟨m, hm⟩ := Option.isSome_iff_exists.mp htyped
  rw [(sharedIn_eq_some hm).2.2 s hs, (sharedIn_eq_some (hshared ▸ hm)).2.2 s' hs']

/-! ## Trees -/

/-- A payload that goes on with something settles the tree, once the marker is known. -/
def Settled (framing : Framing) (t : Tree) : Prop :=
  ∀ {t' : Tree} {rest rest' : Bytes}, Writable t' → t'.Countable → markerOf t = markerOf t' →
    payloadForm framing t ++ rest = payloadForm framing t' ++ rest' →
      signed t = signed t' ∧ rest = rest'

/-- So does a form, with its marker in front or with a marker that is known to be the same. -/
theorem Settled.form {typed : Bool} (h : Settled framing t) (ht' : Writable t')
    (hcount' : t'.Countable) (htyped : typed = true → markerOf t = markerOf t')
    (heq : form framing typed t ++ rest = form framing typed t' ++ rest') :
    signed t = signed t' ∧ rest = rest' := by
  cases typed with
  | true => exact h ht' hcount' (htyped rfl) heq
  | false =>
    obtain ⟨hoctet, hpayload⟩ := List.cons.inj heq
    exact h ht' hcount' (octet_inj hoctet) hpayload

/-- **A payload settles its tree, up to the kind of its integers.** -/
theorem payloadForm_settled (ht : Writable t) (hcount : t.Countable) : Settled framing t := by
  induction t using Tree.induct with
  | scalar t hscalar =>
    intro t' rest rest' ht' _ hmarker heq
    have hread : Reader.Reads _ (payloadForm framing t) _ := scalarPayload_reads hscalar ht
    rw [hmarker] at hread
    exact hread.unique (scalarPayload_reads (isContainer_of_markerOf hmarker hscalar) ht') heq
  | list items ih =>
    intro t' rest rest' ht' hcount' hmarker heq
    obtain ⟨items', rfl⟩ := markerOf_list hmarker.symm
    have hwritable := writable_list.mp ht
    have hwritable' := writable_list.mp ht'
    obtain ⟨hn, hcounts⟩ := Tree.countable_list.mp hcount
    obtain ⟨hn', hcounts'⟩ := Tree.countable_list.mp hcount'
    have hentries : Entries framing .list _ items _ := list_entries hn
    have hentries' : Entries framing .list _ items' _ := list_entries hn'
    rw [payloadForm, payloadForm, formItems_eq, formItems_eq] at heq
    -- first the heads are the same, then the items behind them
    obtain ⟨hshared, hlength, hbehind⟩ := hentries.heading_settled hentries' heq
    rw [← hshared] at hentries' hbehind
    obtain ⟨hitems, hrest⟩ := hentries.settled hentries' hlength
      (fun s hs s' hs' {_ _} hform => Settled.form (ih s hs (hwritable s hs) (hcounts s hs))
        (hwritable' s' hs') (hcounts' s' hs') (markerOf_shared hs hs' hshared) hform) hbehind
    exact ⟨by rw [signed, signed, Tree.mapIntegers_list, Tree.mapIntegers_list, hitems], hrest⟩
  | map pairs ih =>
    intro t' rest rest' ht' hcount' hmarker heq
    obtain ⟨pairs', rfl⟩ := markerOf_map hmarker.symm
    obtain ⟨hkeys, hwritable⟩ := writable_map.mp ht
    obtain ⟨hkeys', hwritable'⟩ := writable_map.mp ht'
    obtain ⟨hn, hcounts⟩ := Tree.countable_map.mp hcount
    obtain ⟨hn', hcounts'⟩ := Tree.countable_map.mp hcount'
    have hentries : Entries framing .map _ pairs _ := map_entries hn
    have hentries' : Entries framing .map _ pairs' _ := map_entries hn'
    rw [payloadForm, payloadForm, formPairs_eq, formPairs_eq] at heq
    obtain ⟨hshared, hlength, hbehind⟩ := hentries.heading_settled hentries' heq
    rw [← hshared] at hentries' hbehind
    -- of every pair the key is settled before the value
    have hpair : ∀ kv ∈ pairs, ∀ kv' ∈ pairs', ∀ {rest rest' : Bytes},
        sizedForm kv.1 ++ form framing (sharedIn framing (pairs.map (·.2))).isSome kv.2 ++ rest =
          sizedForm kv'.1 ++ form framing (sharedIn framing (pairs.map (·.2))).isSome kv'.2 ++ rest' →
        (kv.1, signed kv.2) = (kv'.1, signed kv'.2) ∧ rest = rest' := by
      intro kv hkv kv' hkv' rest rest' hform
      rw [List.append_assoc, List.append_assoc] at hform
      obtain ⟨hkey, hvalue⟩ := (text_reads (hkeys kv hkv)).unique (text_reads (hkeys' kv' hkv')) hform
      obtain ⟨hsigned, hrest⟩ := Settled.form (ih kv hkv (hwritable kv hkv) (hcounts kv hkv))
        (hwritable' kv' hkv') (hcounts' kv' hkv')
        (markerOf_shared (List.mem_map_of_mem hkv) (List.mem_map_of_mem hkv') hshared) hvalue
      exact ⟨by rw [hkey, hsigned], hrest⟩
    obtain ⟨hpairs, hrest⟩ := hentries.settled hentries' hlength hpair hbehind
    exact ⟨by rw [signed, signed, Tree.mapIntegers_map, Tree.mapIntegers_map, hpairs], hrest⟩

/-! ## Both framings -/

theorem codecs_eq : Codec.ofFormat .ubjson = [closed, counted] := rfl

/-- The codec that writes in a framing. -/
def Framing.codec : Framing → Codec
  | .closed => Ubjson.closed
  | .counted => Ubjson.counted

/-- Both codecs write in their framing whatever they write. -/
theorem encode_ok {o : FoldOptions} {e : Encoded} (hok : framing.codec.encode t o = .ok e) :
    Writable t ∧ t.Countable ∧ e.bytes = form framing false t := by
  cases framing with
  | closed =>
    obtain ⟨⟨ht, hcount⟩, -, rfl⟩ := encode_eq_ok_iff.mp hok
    exact ⟨ht, hcount, rfl⟩
  | counted =>
    obtain ⟨⟨ht, hcount⟩, -, rfl⟩ := encode_eq_ok_iff.mp hok
    exact ⟨ht, hcount, rfl⟩

/-- Both codecs write the same trees. -/
theorem exists_encode_iff {writer : Codec} (h : writer ∈ Codec.ofFormat .ubjson) {o : FoldOptions} :
    (∃ e, writer.encode t o = .ok e) ↔ (Writable t ∧ t.Countable) ∧ t.depth ≤ o.depthLimit := by
  have hencode : ∀ codec framing, (∃ e, encode codec framing t o = .ok e) ↔
      (Writable t ∧ t.Countable) ∧ t.depth ≤ o.depthLimit := fun codec framing =>
    ⟨fun ⟨_, hok⟩ => ⟨(encode_eq_ok_iff.mp hok).1, (encode_eq_ok_iff.mp hok).2.1⟩,
      fun ⟨ht, hdepth⟩ => ⟨_, encode_eq_ok_iff.mpr ⟨ht, hdepth, rfl⟩⟩⟩
  rw [codecs_eq] at h
  rcases List.mem_cons.mp h with rfl | h
  · exact hencode "ubjson" .closed
  · rw [List.mem_singleton.mp h]
    exact hencode "ubjson-counted" .counted

/-- Both codecs read alike. -/
theorem decode_eq {reader : Codec} (h : reader ∈ Codec.ofFormat .ubjson) (input : Bytes)
    (o : FoldOptions) : reader.decode input o = decode input o := by
  rw [codecs_eq] at h
  rcases List.mem_cons.mp h with rfl | h
  · rfl
  · rw [List.mem_singleton.mp h]
    rfl

/-- **What is written in either framing is read by both codecs as the tree it was written for.** -/
theorem ubjson_framings_round_trip {o : FoldOptions} {e : Encoded}
    (hok : framing.codec.encode t o = .ok e) :
    (∀ {f : Folder} {limit levels : Nat} {rest : Bytes}, f.InStep limit levels →
      (fold levels).Drives (Cursor.Before (e.bytes ++ rest)) f (arrival framing t) ()
        (Cursor.Before rest)) ∧
    Traversal (signed t) (arrival framing t) ∧
    (∀ reader ∈ Codec.ofFormat .ubjson, reader.Recovers e.bytes t) ∧
    ∀ {t' : Tree} {o' : FoldOptions} {e' : Encoded}, framing.codec.encode t' o' = .ok e' →
      e'.bytes = e.bytes → signed t' = signed t := by
  obtain ⟨ht, hcount, hbytes⟩ := encode_ok hok
  rw [hbytes]
  refine ⟨fun hf => fold_drives ht hcount hf, Tree.traversal_arrival hcount,
    fun reader hreader => .of_eq_ite hcount fun o' => ?_, fun {t' o' e'} hok' heq => ?_⟩
  · rw [decode_eq hreader, decode_form_eq ht hcount]
  · obtain ⟨ht', hcount', hbytes'⟩ := encode_ok hok'
    -- nothing follows either form
    have hforms : form framing false t' ++ [] = form framing false t ++ [] := by
      rw [← hbytes', heq]
    exact (Settled.form (payloadForm_settled ht' hcount') ht hcount Bool.noConfusion hforms).1

theorem ubjson_framings_round_trip_typed :
    (∃ digest, foldTree (.list [.uint 5, .int 6]) {} = .ok digest ∧
      closed.decode [0x5B, 0x24, 0x69, 0x23, 0x69, 2, 5, 6] {} = .ok digest) ∧
    counted.decode [0x5B, 0x24, 0x69, 0x23, 0x69, 2, 5, 6] { maxDepth := 0 } =
      .error (.decode (.depthExceeded 0)) ∧
    signed (.list [.int 5, .int 6]) = signed (.list [.uint 5, .int 6]) := by
  have hok : Framing.counted.codec.encode (.list [.uint 5, .int 6]) {} =
      .ok ⟨[0x5B, 0x24, 0x69, 0x23, 0x69, 2, 5, 6], (Tree.list [.uint 5, .int 6]).digest {}⟩ := by
    rfl
  have hok' : Framing.counted.codec.encode (.list [.int 5, .int 6]) {} =
      .ok ⟨[0x5B, 0x24, 0x69, 0x23, 0x69, 2, 5, 6], (Tree.list [.int 5, .int 6]).digest {}⟩ := by
    rfl
  obtain ⟨-, -, hrecovers, hunique⟩ := ubjson_framings_round_trip hok
  have hclosed := hrecovers closed (List.mem_cons_self ..)
  have hcounted := hrecovers counted (List.mem_cons_of_mem _ (List.mem_cons_self ..))
  exact ⟨hclosed.within {} (by decide), hcounted.beyond { maxDepth := 0 } (by decide),
    hunique hok' rfl⟩

end TreeDigest.Ubjson
