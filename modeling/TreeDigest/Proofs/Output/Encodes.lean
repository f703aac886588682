import TreeDigest.Output.Encoding
import TreeDigest.Proofs.Fold.Walk

/-!
# What an encoder yields

An encoder that succeeds adds octets to its output, whatever is there already, and
takes its folder to another. `Writes` and `Yields` say which octets and which
folder, and go through sequences; so a writer of a format is described part by
part, and nothing here depends on what was written before.

`Encodes` is the case of a whole value: the octets of a tree, and the folder that
has folded it. Its last two lemmas are about loops over the entries of a container.
They speak of any loop that does a step for one entry after another, since each
format has its own and all go alike.
-/

namespace TreeDigest

namespace Output

variable (out : Output) (a b : Bytes)

theorem append_nil : out.append [] = out := rfl

theorem append_append : (out.append a).append b = out.append (a ++ b) := by
  simp [append]

end Output

/-- A step of writing adds certain octets to any output and gives a result. -/
structure Writer.Writes {α : Type} (step : Writer α) (bytes : Bytes) (a : α) : Prop where
  apply : ∀ out, step out = .ok a (out.append bytes)

namespace Writer.Writes

variable {α β : Type} {step : Writer α} {next : α → Writer β} {bytes more : Bytes} {a : α} {b : β}

theorem pure : Writes (pure a : Writer α) [] a := ⟨fun _ => rfl⟩

theorem put : Writes (Writer.put bytes) bytes () := ⟨fun _ => rfl⟩

theorem bind (h : Writes step bytes a) (hnext : Writes (next a) more b) :
    Writes (step >>= next) (bytes ++ more) b where
  apply out := by rw [Steps.bind_ok (h.apply out), hnext.apply, Output.append_append]

/-- A step that succeeds has added no other octets. -/
theorem of_ok {out out' : Output} {c : α} (h : Writes step bytes a) (hok : step out = .ok c out') :
    out' = out.append bytes := by
  rw [h.apply] at hok
  cases hok
  rfl

end Writer.Writes

/-- From a folder, a step of encoding adds certain octets and leaves a result and another folder. -/
structure Encoder.Yields {α : Type} (step : Encoder α) (f : Folder) (bytes : Bytes) (a : α)
    (f' : Folder) : Prop where
  apply : ∀ out, step ⟨out, f⟩ = .ok a ⟨out.append bytes, f'⟩

namespace Encoder.Yields

variable {α β : Type} {step : Encoder α} {next : α → Encoder β} {f f₁ f' : Folder}
  {bytes more : Bytes} {a : α} {b : β}

theorem pure : Yields (pure a : Encoder α) f [] a f := ⟨fun _ => rfl⟩

theorem bind (h : Yields step f bytes a f₁) (hnext : Yields (next a) f₁ more b f') :
    Yields (step >>= next) f (bytes ++ more) b f' where
  apply out := by rw [Steps.bind_ok (h.apply out), hnext.apply, Output.append_append]

/-- A step that writes nothing, before one that writes. -/
theorem bind_nil (h : Yields step f [] a f₁) (hnext : Yields (next a) f₁ more b f') :
    Yields (step >>= next) f more b f' := bind h hnext

/-- A step that writes nothing, after one that writes. -/
theorem bind_last (h : Yields step f bytes a f₁) (hnext : Yields (next a) f₁ [] b f') :
    Yields (step >>= next) f bytes b f' := by
  have hbind := bind h hnext
  rwa [List.append_nil] at hbind

theorem write {step : Writer α} (h : step.Writes bytes a) :
    Yields (Encoder.write step) f bytes a f where
  apply out := by rw [Encoder.write, h.apply]

theorem put : Yields (Encoder.put bytes) f bytes () f := write .put

theorem fold {e : Event} (h : Folding.event e f = .ok () f') :
    Yields (Encoder.fold e) f [] () f' where
  apply out := by rw [Encoder.fold, h, Output.append_nil]

theorem count {n : Nat} (h : n < 0x100000000) : Yields (Encoder.count n) f [] n.toUInt32 f where
  apply out := by
    rw [Encoder.count, Folder.countOf, if_pos h]
    rfl

/-- The octets can be given in another way. -/
theorem congr (h : Yields step f bytes a f') (hbytes : bytes = more) : Yields step f more a f' :=
  hbytes ▸ h

/-- What an encoder with a fresh folder gives. -/
theorem run {step : Encoder Unit} {t : Tree} {o : FoldOptions}
    (h : Yields step (.start .encode o) bytes () ((Folder.start .encode o).foldedTree t)) :
    Encoder.run step o = .ok ⟨bytes, t.digest o⟩ := by
  rw [Encoder.run, h.apply]
  dsimp only
  rw [Folder.finish_start_foldedTree, Output.bytes_append, Output.bytes_empty, List.nil_append]

end Encoder.Yields

/-! ## Whole values -/

/-- Forms that do not depend on the place of an entry. -/
theorem flatMap_zipIdx {α β : Type} (form : α → List β) (xs : List α) (i : Nat) :
    ((xs.zipIdx i).flatMap fun p => form p.1) = xs.flatMap form := by
  rw [← List.flatMap_map Prod.fst form, List.zipIdx_map_fst]

/-- A step of encoding writes certain octets for a tree and folds it. -/
structure Encodes (step : Encoder Unit) (t : Tree) (bytes : Bytes) : Prop where
  apply : ∀ {f : Folder}, f.Admits t.depth → step.Yields f bytes () (f.foldedTree t)

namespace Encodes

open Folder Encoder

/-- A tree within the limit is encoded, with its digest. -/
theorem run {step : Encoder Unit} {t : Tree} {bytes : Bytes} {o : FoldOptions}
    (h : Encodes step t bytes) (hdepth : t.depth ≤ o.depthLimit) :
    Encoder.run step o = .ok ⟨bytes, t.digest o⟩ :=
  (h.apply (start_admits hdepth)).run

/-- A scalar that is folded and then written. -/
theorem scalar {t : Tree} {e : Event} {bytes : Bytes} {step : Encoder Unit}
    (hfold : ∀ {f : Folder}, f.Admits t.depth → Folding.event e f = .ok () (f.foldedTree t))
    (hstep : ∀ f, step.Yields f bytes () f) : Encodes (do Encoder.fold e; step) t bytes where
  apply h := (Yields.fold (hfold h)).bind (hstep _)

/-- A scalar that is written and then folded. -/
theorem scalarAfter {t : Tree} {e : Event} {bytes : Bytes} {step : Encoder Unit}
    (hfold : ∀ {f : Folder}, f.Admits t.depth → Folding.event e f = .ok () (f.foldedTree t))
    (hstep : ∀ f, step.Yields f bytes () f) : Encodes (do step; Encoder.fold e) t bytes where
  apply h := (hstep _).bind_last (.fold (hfold h))

/-- What is written first and folds nothing stands before the form. -/
theorem after {step : Writer Unit} {next : Encoder Unit} {t : Tree} {bytes more : Bytes}
    (h : step.Writes bytes ()) (hnext : Encodes next t more) :
    Encodes (do Encoder.write step; next) t (bytes ++ more) where
  apply hf := .bind (.write h) (hnext.apply hf)

variable {f : Folder} {declared : Option UInt32} {n m : Nat}

/-- A loop over the items of a list encodes them one after the other. -/
theorem items (W : Nat → List Tree → Encoder Unit) (w : Nat → Tree → Encoder Unit)
    (form : Nat → Tree → Bytes) (hnil : ∀ i, W i [] = pure ())
    (hcons : ∀ i item items, W i (item :: items) = (do w i item; W (i + 1) items))
    (h : f.Admits (m + 1)) (hn : n < 0x100000000) (hd : ∀ d ∈ declared, d.toNat = n)
    {items : List Tree} (hdepth : ∀ t ∈ items, t.depth ≤ m)
    (seen : List Tree)
    (hw : ∀ p ∈ items.zipIdx seen.length, Encodes (w p.2 p.1) p.1 (form p.2 p.1))
    (hlen : seen.length + items.length = n) :
    (W seen.length items).Yields (f.listOver declared seen)
      ((items.zipIdx seen.length).flatMap fun p => form p.2 p.1) ()
      (f.listOver declared (seen ++ items)) := by
  induction items generalizing seen with
  | nil =>
    rw [hnil, List.append_nil]
    exact .pure
  | cons item items ih =>
    rw [List.zipIdx_cons, List.forall_mem_cons] at hw
    rw [List.forall_mem_cons] at hdepth
    rw [List.length_cons] at hlen
    have hroom : RoomAfter declared seen.length := .of_lt hn hd (by omega)
    -- the item is folded where the list stands after those seen, and is then one of them
    have hitem := hw.1.apply ((listOver_admits h hroom).mono hdepth.1)
    rw [listOver_foldedTree] at hitem
    have hseen : (seen ++ [item]).length = seen.length + 1 := by
      rw [List.length_append, List.length_singleton]
    have hitems := ih hdepth.2 (seen ++ [item]) (hseen ▸ hw.2) (by omega)
    rw [hseen, List.append_assoc] at hitems
    rw [hcons]
    exact (hitem.bind hitems).congr (by rw [List.zipIdx_cons, List.flatMap_cons])

/-- A loop over the pairs of a map encodes them one after the other. -/
theorem pairs (W : Nat → List (Bytes × Tree) → Encoder Unit) (head : Nat → Bytes → Encoder Unit)
    (w : Bytes → Tree → Encoder Unit) (headForm : Nat → Bytes → Bytes) (form : Bytes → Tree → Bytes)
    (hnil : ∀ i, W i [] = pure ())
    (hcons : ∀ i k value pairs,
      W i ((k, value) :: pairs) = (do head i k; w k value; W (i + 1) pairs))
    (h : f.Admits (m + 1)) (hn : n < 0x100000000) (hd : ∀ d ∈ declared, d.toNat = n)
    {pairs : List (Bytes × Tree)} (hdepth : ∀ kv ∈ pairs, kv.2.depth ≤ m)
    (hhead : ∀ i, ∀ kv ∈ pairs, ∀ seen, (head i kv.1).Yields (f.mapOver declared seen)
      (headForm i kv.1) () (f.keyOver declared seen kv.1))
    (hw : ∀ kv ∈ pairs, Encodes (w kv.1 kv.2) kv.2 (form kv.1 kv.2)) (seen : List (Bytes × Tree))
    (hlen : seen.length + pairs.length = n) :
    (W seen.length pairs).Yields (f.mapOver declared seen)
      ((pairs.zipIdx seen.length).flatMap fun p => headForm p.2 p.1.1 ++ form p.1.1 p.1.2) ()
      (f.mapOver declared (seen ++ pairs)) := by
  induction pairs generalizing seen with
  | nil =>
    rw [hnil, List.append_nil]
    exact .pure
  | cons pair pairs ih =>
    obtain ⟨k, value⟩ := pair
    rw [List.forall_mem_cons] at hdepth hw
    rw [List.length_cons] at hlen
    have hroom : RoomAfter declared seen.length := .of_lt hn hd (by omega)
    -- the key comes first, with what separates it from the pair before
    have hkey := hhead seen.length (k, value) (List.mem_cons_self ..) seen
    have hvalue := hw.1.apply ((keyOver_admits (k := k) h hroom).mono hdepth.1)
    rw [keyOver_foldedTree] at hvalue
    have hpairs := ih hdepth.2 (fun i kv hkv => hhead i kv (List.mem_cons_of_mem _ hkv)) hw.2
      (seen ++ [(k, value)]) (by rw [List.length_append, List.length_singleton]; omega)
    rw [List.length_append, List.length_singleton, List.append_assoc] at hpairs
    rw [hcons]
    refine (hkey.bind (hvalue.bind hpairs)).congr ?_
    rw [List.zipIdx_cons, List.flatMap_cons, List.append_assoc]

end Encodes

end TreeDigest
