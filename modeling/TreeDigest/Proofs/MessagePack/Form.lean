import TreeDigest.MessagePack.Codec
import TreeDigest.Proofs.Output.Requires

/-!
# The MessagePack form of a tree

What a writer yields is a function of the tree: `form`. A tree whose lengths fit 32
bits is written in its form, and no other tree is written at all.
-/

namespace TreeDigest.MessagePack

open Encoder (Yields)

variable (widths : Widths)

/-- The form of a string. -/
def textForm (octets : Bytes) : Bytes := textHead widths octets.length ++ octets

mutual

/-- The form of a tree. -/
def form : Tree → Bytes
  | .null => nullForm
  | .bool b => boolForm b
  | .int i => intForm widths i
  | .uint u => uintForm widths u
  | .double bits => doubleForm bits
  | .text octets => textForm widths octets
  | .list items => arrayForm widths items.length.toUInt32 ++ formItems items
  | .map pairs => mapForm widths pairs.length.toUInt32 ++ formPairs pairs

def formItems : List Tree → Bytes
  | [] => []
  | item :: items => form item ++ formItems items

def formPairs : List (Bytes × Tree) → Bytes
  | [] => []
  | (k, value) :: pairs => textForm widths k ++ form value ++ formPairs pairs

end

variable {widths} {codec : String}

theorem formItems_eq (items : List Tree) : formItems widths items = items.flatMap (form widths) := by
  induction items with
  | nil => rfl
  | cons item items ih => rw [formItems, ih, List.flatMap_cons]

theorem formPairs_eq (pairs : List (Bytes × Tree)) :
    formPairs widths pairs = pairs.flatMap fun kv => textForm widths kv.1 ++ form widths kv.2 := by
  induction pairs with
  | nil => rfl
  | cons pair pairs ih => rw [formPairs, ih, List.flatMap_cons]

/-! ## Writing -/

theorem fieldLength_writes {n : Nat} {tooLong : Obstacle} (h : n < 0x100000000) :
    (fieldLength codec n tooLong).Writes [] n.toUInt32 := by
  rw [fieldLength, if_pos h]
  exact .pure

theorem putText_writes {octets : Bytes} (h : octets.length < 0x100000000) :
    (putText codec widths octets).Writes (textForm widths octets) () := by
  rw [textForm, ← Folder.toNat_length h]
  exact (fieldLength_writes h).bind (.bind .put .put)

/-- Folds a key and writes it. -/
def writeKey (codec : String) (widths : Widths) (k : Bytes) : Encoder Unit := do
  Encoder.fold (.key k)
  Encoder.write (putText codec widths k)

theorem writePairs_cons {k : Bytes} {value : Tree} {pairs : List (Bytes × Tree)} :
    writePairs codec widths ((k, value) :: pairs) = (do
      writeKey codec widths k
      write codec widths value
      writePairs codec widths pairs) := by
  rw [writePairs, writeKey, bind_assoc]

theorem writeKey_yields {k : Bytes} (h : k.length < 0x100000000) {f : Folder}
    {declared : Option UInt32} {seen : List (Bytes × Tree)} :
    (writeKey codec widths k).Yields (f.mapOver declared seen) (textForm widths k) ()
      (f.keyOver declared seen k) :=
  .bind_nil (.fold Folder.key_tree) (.write (putText_writes h))

/-- **A tree of which all lengths fit 32 bits is written in its form.** -/
theorem write_encodes {t : Tree} (ht : t.Short) :
    Encodes (write codec widths t) t (form widths t) := by
  induction t using Tree.induct with
  | scalar t hscalar =>
    cases t with
    | list items => exact Bool.noConfusion hscalar
    | map pairs => exact Bool.noConfusion hscalar
    | text octets => exact .scalar Folder.scalar_ok fun _ => .write (putText_writes ht)
    | _ => exact .scalar Folder.scalar_ok fun _ => .put
  | list items ih =>
    obtain ⟨hlen, hitems⟩ := Tree.short_list.mp ht
    obtain ⟨m, hm, hdepth⟩ := Tree.exists_depth_list items
    refine ⟨fun {f} h => ?_⟩
    rw [hm] at h
    have hloop := Encodes.items (fun _ => writeItems codec widths) (fun _ => write codec widths)
      (fun _ => form widths) (fun _ => rfl) (fun _ _ _ => rfl) h hlen (Folder.declared_eq hlen)
      hdepth [] (fun p hp => ih p.1 (List.fst_mem_of_mem_zipIdx hp)
        (hitems p.1 (List.fst_mem_of_mem_zipIdx hp))) (Nat.zero_add _)
    rw [flatMap_zipIdx, ← formItems_eq, List.nil_append] at hloop
    rw [write, form]
    refine .bind_nil (.write (fieldLength_writes hlen)) ?_
    refine .bind_nil (.fold (Folder.beginList_tree h)) (.bind .put (hloop.bind_last (.fold ?_)))
    exact Folder.endList_tree h.room hlen (Folder.declared_eq hlen)
  | map pairs ih =>
    obtain ⟨⟨hlen, hkeys⟩, hpairs⟩ := Tree.short_map.mp ht
    obtain ⟨m, hm, hdepth⟩ := Tree.exists_depth_map pairs
    refine ⟨fun {f} h => ?_⟩
    rw [hm] at h
    have hloop := Encodes.pairs (fun _ => writePairs codec widths) (fun _ => writeKey codec widths)
      (fun _ => write codec widths) (fun _ => textForm widths) (fun _ => form widths) (fun _ => rfl)
      (fun _ _ _ _ => writePairs_cons) h hlen (Folder.declared_eq hlen) hdepth
      (fun _ kv hkv _ => writeKey_yields (hkeys kv hkv))
      (fun kv hkv => ih kv hkv (hpairs kv hkv)) [] (Nat.zero_add _)
    rw [flatMap_zipIdx fun kv : Bytes × Tree => textForm widths kv.1 ++ form widths kv.2,
      ← formPairs_eq, List.nil_append] at hloop
    rw [write, form]
    refine .bind_nil (.write (fieldLength_writes hlen)) ?_
    refine .bind_nil (.fold (Folder.beginMap_tree h)) (.bind .put (hloop.bind_last (.fold ?_)))
    exact Folder.endMap_tree h.room hlen (Folder.declared_eq hlen)

/-! ## Nothing else is written -/

theorem fieldLength_ok {n : Nat} {tooLong : Obstacle} {out out' : Output} {count : UInt32}
    (h : fieldLength codec n tooLong out = .ok count out') :
    n < 0x100000000 ∧ n.toUInt32 = count ∧ out = out' := by
  unfold fieldLength at h
  split at h
  · rename_i hn
    cases h
    exact ⟨hn, rfl, rfl⟩
  · cases h

theorem putText_ok {octets : Bytes} {out out' : Output}
    (h : putText codec widths octets out = .ok () out') : octets.length < 0x100000000 := by
  obtain ⟨_, _, hlength, -⟩ := Steps.bind_eq_ok_iff.mp h
  exact (fieldLength_ok hlength).1

theorem writeKey_ok {k : Bytes} {s s' : Encoding} (h : writeKey codec widths k s = .ok () s') :
    k.length < 0x100000000 ∧ Folding.event (.key k) s.folder = .ok () s'.folder := by
  obtain ⟨_, s₁, hfold, hwrite⟩ := Steps.bind_eq_ok_iff.mp h
  obtain ⟨f, hf, rfl⟩ := Encoder.fold_eq_ok_iff.mp hfold
  obtain ⟨out, hput, rfl⟩ := Encoder.write_eq_ok_iff.mp hwrite
  exact ⟨putText_ok hput, hf⟩

/-- **A tree that is written has lengths that fit 32 bits.** -/
theorem write_requires (t : Tree) : Requires (write codec widths t) t t.Short := by
  induction t using Tree.induct with
  | scalar t hscalar =>
    cases t with
    | list items => exact Bool.noConfusion hscalar
    | map pairs => exact Bool.noConfusion hscalar
    | text octets => exact .scalar rfl (Encoder.Keeps.write putText_ok)
    | _ => exact .scalar rfl Encoder.Keeps.put
  | list items ih =>
    refine ⟨fun {s s'} hok => ?_⟩
    rw [write] at hok
    obtain ⟨count, s₁, hcount, hok⟩ := Steps.bind_eq_ok_iff.mp hok
    obtain ⟨_, s₂, hbegin, hok⟩ := Steps.bind_eq_ok_iff.mp hok
    obtain ⟨_, s₃, hhead, hok⟩ := Steps.bind_eq_ok_iff.mp hok
    obtain ⟨_, s₄, hitems, hend⟩ := Steps.bind_eq_ok_iff.mp hok
    obtain ⟨out, hfield, rfl⟩ := Encoder.write_eq_ok_iff.mp hcount
    obtain ⟨hlen, rfl, -⟩ := fieldLength_ok hfield
    obtain ⟨f₁, hf₁, rfl⟩ := Encoder.fold_eq_ok_iff.mp hbegin
    obtain ⟨-, hfolder⟩ := Encoder.Keeps.put hhead
    obtain ⟨hall, htrees⟩ := Requires.items (fun _ => writeItems codec widths)
      (fun _ => write codec widths) Tree.Short (fun _ => rfl) (fun _ _ _ => rfl) (fun _ => ih) 0
      hitems
    obtain ⟨f₂, hf₂, rfl⟩ := Encoder.fold_eq_ok_iff.mp hend
    rw [hfolder] at htrees
    exact ⟨Tree.short_list.mpr ⟨hlen, hall⟩, Requires.tree_list hlen hf₁ htrees hf₂⟩
  | map pairs ih =>
    refine ⟨fun {s s'} hok => ?_⟩
    rw [write] at hok
    obtain ⟨count, s₁, hcount, hok⟩ := Steps.bind_eq_ok_iff.mp hok
    obtain ⟨_, s₂, hbegin, hok⟩ := Steps.bind_eq_ok_iff.mp hok
    obtain ⟨_, s₃, hhead, hok⟩ := Steps.bind_eq_ok_iff.mp hok
    obtain ⟨_, s₄, hpairs, hend⟩ := Steps.bind_eq_ok_iff.mp hok
    obtain ⟨out, hfield, rfl⟩ := Encoder.write_eq_ok_iff.mp hcount
    obtain ⟨hlen, rfl, -⟩ := fieldLength_ok hfield
    obtain ⟨f₁, hf₁, rfl⟩ := Encoder.fold_eq_ok_iff.mp hbegin
    obtain ⟨-, hfolder⟩ := Encoder.Keeps.put hhead
    obtain ⟨hall, hmembers⟩ := Requires.pairs (fun _ => writePairs codec widths)
      (fun _ => writeKey codec widths) (fun _ => write codec widths)
      (fun k => k.length < 0x100000000) (fun _ => Tree.Short) (fun _ => rfl)
      (fun _ _ _ _ => writePairs_cons) writeKey_ok ih 0 hpairs
    obtain ⟨f₂, hf₂, rfl⟩ := Encoder.fold_eq_ok_iff.mp hend
    rw [hfolder] at hmembers
    refine ⟨Tree.short_map.mpr ⟨⟨hlen, fun kv hkv => (hall kv hkv).1⟩, fun kv hkv => (hall kv hkv).2⟩, ?_⟩
    exact Requires.tree_map hlen hf₁ hmembers hf₂

end TreeDigest.MessagePack
