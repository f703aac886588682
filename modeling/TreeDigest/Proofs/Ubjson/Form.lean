import TreeDigest.Ubjson.Codec
import TreeDigest.Proofs.Output.Requires

/-!
# The UBJSON form of a tree

Every value is a marker and a payload, and the marker is left out where the
container around the value has declared it. So `payloadForm` is what a value is
written with besides its marker, and `form` puts the marker in front or does not.

Texts and keys have to be UTF-8 and integers in the signed range, the lengths of texts
and keys among them: `Writable`.
-/

namespace TreeDigest.Ubjson

open Encoder (Yields)

/-! ## Forms -/

/-- The form of an integer after its marker. -/
def intForm (i : Int64) : Bytes :=
  Bytes.big (IntegerForm.narrowest i).width i.toUInt64.toNat

/-- A length or a count, with its marker. -/
def lengthForm (n : Nat) : Bytes :=
  (Marker.integer (IntegerForm.narrowest (Int64.ofNat n))).octet :: intForm (Int64.ofNat n)

/-- A text or a key after its marker. -/
def sizedForm (octets : Bytes) : Bytes := lengthForm octets.length ++ octets

/-- The marker of a tree. -/
def markerOf : Tree → Marker
  | .null => .null
  | .bool b => if b then .yes else .no
  | .int i => .integer (IntegerForm.narrowest i)
  | .uint u => .integer (IntegerForm.narrowest u.toInt64)
  | .double _ => .double
  | .text _ => .text
  | .list _ => .listStart
  | .map _ => .mapStart

/-- A marker, unless it has been declared. -/
def markerForm (typed : Bool) (m : Marker) : Bytes := if typed then [] else [m.octet]

/-- What a head says of the marker that its values share. -/
def sharedForm : Option Marker → Bytes
  | some m => [Marker.sharedType.octet, m.octet]
  | none => []

/-- The head of a container, after its opening marker. -/
def headingForm (framing : Framing) (count : Nat) (shared : Option Marker) : Bytes :=
  match framing with
  | .closed => []
  | .counted => sharedForm shared ++ Marker.count.octet :: lengthForm count

/-- The end of a container. -/
def endForm (framing : Framing) (m : Marker) : Bytes :=
  match framing with
  | .closed => [m.octet]
  | .counted => []

variable (framing : Framing)

mutual

/-- The form of a value, after its marker. -/
def payloadForm : Tree → Bytes
  | .null => []
  | .bool _ => []
  | .int i => intForm i
  | .uint u => intForm u.toInt64
  | .double bits => Bytes.big 8 bits.toNat
  | .text octets => sizedForm octets
  | .list items =>
    let shared := sharedIn framing items
    headingForm framing items.length shared ++
      (formItems shared.isSome items ++ endForm framing .listEnd)
  | .map pairs =>
    let shared := sharedIn framing (pairs.map (·.2))
    headingForm framing pairs.length shared ++
      (formPairs shared.isSome pairs ++ endForm framing .mapEnd)

def formItems (typed : Bool) : List Tree → Bytes
  | [] => []
  | item :: items => markerForm typed (markerOf item) ++ payloadForm item ++ formItems typed items

def formPairs (typed : Bool) : List (Bytes × Tree) → Bytes
  | [] => []
  | (k, value) :: pairs =>
    sizedForm k ++ (markerForm typed (markerOf value) ++ payloadForm value) ++ formPairs typed pairs

end

/-- The form of a value. -/
def form (typed : Bool) (t : Tree) : Bytes := markerForm typed (markerOf t) ++ payloadForm framing t

variable {framing} {typed : Bool}

theorem formItems_eq (items : List Tree) :
    formItems framing typed items = items.flatMap (form framing typed) := by
  induction items with
  | nil => rfl
  | cons item items ih =>
    rw [formItems, ih, List.flatMap_cons]
    rfl

theorem formPairs_eq (pairs : List (Bytes × Tree)) :
    formPairs framing typed pairs =
      pairs.flatMap fun kv => sizedForm kv.1 ++ form framing typed kv.2 := by
  induction pairs with
  | nil => rfl
  | cons pair pairs ih =>
    rw [formPairs, ih, List.flatMap_cons]
    rfl

/-! ## What has a form -/

/-- A text or a key has a form. -/
structure Sayable (octets : Bytes) : Prop where
  isValid : Utf8.isValid octets = true
  length_lt : octets.length < 0x8000000000000000

/-- At the root of a tree, nothing stands against a form. -/
def WritableAt : Tree → Prop
  | .uint u => u.toNat < 0x8000000000000000
  | .text octets => Sayable octets
  | .map pairs => ∀ kv ∈ pairs, Sayable kv.1
  | _ => True

/-- Texts and keys have a form, and no integer is beyond the signed range. -/
def Writable (t : Tree) : Prop := t.All WritableAt

theorem writable_list {items : List Tree} : Writable (.list items) ↔ ∀ t ∈ items, Writable t :=
  Tree.all_list.trans (and_iff_right trivial)

theorem writable_map {pairs : List (Bytes × Tree)} :
    Writable (.map pairs) ↔
      (∀ kv ∈ pairs, Sayable kv.1) ∧ ∀ kv ∈ pairs, Writable kv.2 :=
  Tree.all_map

/-! ## Writing -/

variable {codec : String} {f : Folder}

theorem putMarker_writes {m : Marker} : (putMarker typed m).Writes (markerForm typed m) () := by
  cases typed with
  | true => exact .pure
  | false => exact .put

theorem putInt_writes {i : Int64} :
    (putInt typed i).Writes
      (markerForm typed (.integer (IntegerForm.narrowest i)) ++ intForm i) () :=
  .bind putMarker_writes .put

theorem putSized_writes {octets : Bytes} {notUtf8 : Obstacle} {long : Nat → Obstacle}
    (h : Sayable octets) : (putSized codec octets notUtf8 long).Writes (sizedForm octets) () := by
  rw [putSized, h.isValid, if_neg (Nat.not_le.mpr h.length_lt)]
  exact .bind putInt_writes .put

theorem putHeading_writes {n : Nat} {shared : Option Marker} (h : n < 0x100000000) :
    (putHeading framing n.toUInt32 shared).Writes (headingForm framing n shared) () := by
  cases framing with
  | closed => exact .pure
  | counted =>
    have hcount : Writer.Writes (do
        putMarker false .count
        putInt false (Int64.ofNat n.toUInt32.toNat)) (Marker.count.octet :: lengthForm n) () := by
      rw [Folder.toNat_length h]
      exact .bind putMarker_writes putInt_writes
    cases shared with
    | none => exact hcount
    | some m => exact .bind .put hcount

theorem putEnd_writes {m : Marker} : (putEnd framing m).Writes (endForm framing m) () := by
  cases framing with
  | closed => exact .put
  | counted => exact .pure

/-- Folds a key and writes it. -/
def writeKey (codec : String) (k : Bytes) : Encoder Unit := do
  Encoder.fold (.key k)
  Encoder.write (putKey codec k)

theorem writePairs_cons {k : Bytes} {value : Tree} {pairs : List (Bytes × Tree)} :
    writePairs codec framing typed ((k, value) :: pairs) = (do
      writeKey codec k
      write codec framing typed value
      writePairs codec framing typed pairs) := by
  rw [writePairs, writeKey, bind_assoc]

theorem writeKey_yields {k : Bytes} (h : Sayable k) {declared : Option UInt32}
    {seen : List (Bytes × Tree)} :
    (writeKey codec k).Yields (f.mapOver declared seen) (sizedForm k) ()
      (f.keyOver declared seen k) :=
  .bind_nil (.fold Folder.key_tree) (.write (putSized_writes h))

/-- **A writable tree of which all counts fit 32 bits is written in its form.** -/
theorem write_encodes {t : Tree} (ht : Writable t) (hcount : t.Countable) :
    Encodes (write codec framing typed t) t (form framing typed t) := by
  induction t using Tree.induct generalizing typed with
  | scalar t hscalar =>
    cases t with
    | list items => exact Bool.noConfusion hscalar
    | map pairs => exact Bool.noConfusion hscalar
    | null =>
      rw [form, payloadForm, List.append_nil]
      exact .scalar Folder.scalar_ok fun _ => .write putMarker_writes
    | bool b =>
      rw [form, payloadForm, List.append_nil]
      exact .scalar Folder.scalar_ok fun _ => .write putMarker_writes
    | int i => exact .scalar Folder.scalar_ok fun _ => .write putInt_writes
    | uint u =>
      -- within the signed range it is written like any other integer
      have hput : putUInt codec typed u = putInt typed u.toInt64 := if_pos ht
      rw [write, hput]
      exact .scalarAfter Folder.scalar_ok fun _ => .write putInt_writes
    | double bits => exact .scalar Folder.scalar_ok fun _ => .write (.bind putMarker_writes .put)
    | text octets =>
      exact .scalarAfter Folder.scalar_ok fun _ => .write (.bind putMarker_writes (putSized_writes ht))
  | list items ih =>
    have hitems := writable_list.mp ht
    obtain ⟨hlen, hcounts⟩ := Tree.countable_list.mp hcount
    obtain ⟨m, hm, hdepth⟩ := Tree.exists_depth_list items
    refine ⟨fun {f} h => ?_⟩
    rw [hm] at h
    have hloop := Encodes.items (fun _ => writeItems codec framing (sharedIn framing items).isSome)
      (fun _ => write codec framing (sharedIn framing items).isSome)
      (fun _ => form framing (sharedIn framing items).isSome) (fun _ => rfl) (fun _ _ _ => rfl) h hlen
      (Folder.declared_eq hlen) hdepth []
      (fun p hp => ih p.1 (List.fst_mem_of_mem_zipIdx hp) (hitems _ (List.fst_mem_of_mem_zipIdx hp))
        (hcounts _ (List.fst_mem_of_mem_zipIdx hp))) (Nat.zero_add _)
    rw [flatMap_zipIdx, ← formItems_eq, List.nil_append] at hloop
    rw [write]
    refine .bind_nil (.count hlen) (.bind_nil (.fold (Folder.beginList_tree h)) ?_)
    refine .bind (.write putMarker_writes) (.bind (.write (putHeading_writes hlen)) (.bind hloop ?_))
    refine .bind_last (.write putEnd_writes) (.fold ?_)
    exact Folder.endList_tree h.room hlen (Folder.declared_eq hlen)
  | map pairs ih =>
    obtain ⟨hkeys, hpairs⟩ := writable_map.mp ht
    obtain ⟨hlen, hcounts⟩ := Tree.countable_map.mp hcount
    obtain ⟨m, hm, hdepth⟩ := Tree.exists_depth_map pairs
    refine ⟨fun {f} h => ?_⟩
    rw [hm] at h
    have hloop := Encodes.pairs
      (fun _ => writePairs codec framing (sharedIn framing (pairs.map (·.2))).isSome)
      (fun _ => writeKey codec) (fun _ => write codec framing (sharedIn framing (pairs.map (·.2))).isSome)
      (fun _ => sizedForm) (fun _ => form framing (sharedIn framing (pairs.map (·.2))).isSome)
      (fun _ => rfl) (fun _ _ _ _ => writePairs_cons) h hlen (Folder.declared_eq hlen) hdepth
      (fun _ kv hkv _ => writeKey_yields (hkeys kv hkv))
      (fun kv hkv => ih kv hkv (hpairs kv hkv) (hcounts kv hkv)) [] (Nat.zero_add _)
    rw [flatMap_zipIdx fun kv : Bytes × Tree => sizedForm kv.1 ++ form framing _ kv.2,
      ← formPairs_eq, List.nil_append] at hloop
    rw [write]
    refine .bind_nil (.count hlen) (.bind_nil (.fold (Folder.beginMap_tree h)) ?_)
    refine .bind (.write putMarker_writes) (.bind (.write (putHeading_writes hlen)) (.bind hloop ?_))
    refine .bind_last (.write putEnd_writes) (.fold ?_)
    exact Folder.endMap_tree h.room hlen (Folder.declared_eq hlen)

/-! ## Nothing else is written -/

variable {octets : Bytes} {out out' : Output} {s s' : Encoding}

theorem putSized_ok {notUtf8 : Obstacle} {long : Nat → Obstacle}
    (h : putSized codec octets notUtf8 long out = .ok () out') : Sayable octets := by
  unfold putSized at h
  cases hvalid : Utf8.isValid octets with
  | false => rw [hvalid] at h; cases h
  | true =>
    rw [hvalid] at h
    by_cases hlong : 0x8000000000000000 ≤ octets.length
    · rw [if_pos hlong] at h
      cases h
    · exact ⟨hvalid, Nat.not_le.mp hlong⟩

theorem putUInt_ok {u : UInt64} (h : putUInt codec typed u out = .ok () out') :
    u.toNat < 0x8000000000000000 := by
  unfold putUInt at h
  split at h
  · assumption
  · cases h

theorem putText_ok (h : putText codec typed octets out = .ok () out') : Sayable octets := by
  obtain ⟨_, _, -, hsized⟩ := Steps.bind_eq_ok_iff.mp h
  exact putSized_ok hsized

theorem writeKey_ok {k : Bytes} (h : writeKey codec k s = .ok () s') :
    Sayable k ∧ Folding.event (.key k) s.folder = .ok () s'.folder := by
  obtain ⟨_, s₁, hfold, hwrite⟩ := Steps.bind_eq_ok_iff.mp h
  obtain ⟨f, hf, rfl⟩ := Encoder.fold_eq_ok_iff.mp hfold
  obtain ⟨out, hput, rfl⟩ := Encoder.write_eq_ok_iff.mp hwrite
  exact ⟨putSized_ok hput, hf⟩

/-- Any step of writing leaves the folder as it is. -/
theorem keeps_write {step : Writer Unit} : Encoder.Keeps (Encoder.write step) True :=
  Encoder.Keeps.write fun _ => trivial

/-- **A tree that is written is writable.** -/
theorem write_requires (t : Tree) : Requires (write codec framing typed t) t (Writable t) := by
  induction t using Tree.induct generalizing typed with
  | scalar t hscalar =>
    cases t with
    | list items => exact Bool.noConfusion hscalar
    | map pairs => exact Bool.noConfusion hscalar
    | null => exact .scalar rfl (Encoder.Keeps.write fun _ => trivial)
    | bool b => exact .scalar rfl (Encoder.Keeps.write fun _ => trivial)
    | int i => exact .scalar rfl (Encoder.Keeps.write fun _ => trivial)
    | uint u => exact .scalarAfter rfl (Encoder.Keeps.write putUInt_ok)
    | double bits => exact .scalar rfl (Encoder.Keeps.write fun _ => trivial)
    | text octets => exact .scalarAfter rfl (Encoder.Keeps.write putText_ok)
  | list items ih =>
    refine .list fun {count s s'} hok => ?_
    obtain ⟨_, s₁, hmarker, hok⟩ := Steps.bind_eq_ok_iff.mp hok
    obtain ⟨_, s₂, hheading, hok⟩ := Steps.bind_eq_ok_iff.mp hok
    obtain ⟨_, s₃, hitems, hok⟩ := Steps.bind_eq_ok_iff.mp hok
    obtain ⟨_, s₄, hclose, hend⟩ := Steps.bind_eq_ok_iff.mp hok
    obtain ⟨hall, htrees⟩ := Requires.items
      (fun _ => writeItems codec framing (sharedIn framing items).isSome)
      (fun _ => write codec framing (sharedIn framing items).isSome) Writable (fun _ => rfl)
      (fun _ _ _ => rfl) (fun _ t ht => ih t ht) 0 hitems
    obtain ⟨f, hf, rfl⟩ := Encoder.fold_eq_ok_iff.mp hend
    -- between the events, what is written leaves the folder as it is
    rw [(keeps_write hheading).2, (keeps_write hmarker).2] at htrees
    rw [(keeps_write hclose).2] at hf
    exact ⟨writable_list.mpr hall, _, htrees, hf⟩
  | map pairs ih =>
    refine .map fun {count s s'} hok => ?_
    obtain ⟨_, s₁, hmarker, hok⟩ := Steps.bind_eq_ok_iff.mp hok
    obtain ⟨_, s₂, hheading, hok⟩ := Steps.bind_eq_ok_iff.mp hok
    obtain ⟨_, s₃, hpairs, hok⟩ := Steps.bind_eq_ok_iff.mp hok
    obtain ⟨_, s₄, hclose, hend⟩ := Steps.bind_eq_ok_iff.mp hok
    obtain ⟨hall, hmembers⟩ := Requires.pairs
      (fun _ => writePairs codec framing (sharedIn framing (pairs.map (·.2))).isSome)
      (fun _ => writeKey codec)
      (fun _ => write codec framing (sharedIn framing (pairs.map (·.2))).isSome) Sayable
      (fun _ => Writable) (fun _ => rfl) (fun _ _ _ _ => writePairs_cons) writeKey_ok
      (fun kv hkv => ih kv hkv) 0 hpairs
    obtain ⟨f, hf, rfl⟩ := Encoder.fold_eq_ok_iff.mp hend
    rw [(keeps_write hheading).2, (keeps_write hmarker).2] at hmembers
    rw [(keeps_write hclose).2] at hf
    exact ⟨writable_map.mpr ⟨fun kv hkv => (hall kv hkv).1, fun kv hkv => (hall kv hkv).2⟩, _,
      hmembers, hf⟩

end TreeDigest.Ubjson
