import TreeDigest.Proofs.Fold.Depth
import TreeDigest.Proofs.Output.Encodes

/-!
# What an encoder requires

`Encodes` runs an encoder forwards on trees that are known to have a form. This is
the other direction. An encoder that succeeded has folded its tree, so that fits the
limit, and it has come past every refusal of its format, so none of them applied.
Together the two settle on which trees an encoder succeeds.
-/

namespace TreeDigest

/-! ## Steps taken apart -/

namespace Encoder

variable {α : Type} {s s' : Encoding}

theorem write_eq_ok_iff {step : Writer α} {a : α} :
    write step s = .ok a s' ↔ ∃ out, step s.output = .ok a out ∧ { s with output := out } = s' := by
  unfold write
  cases step s.output with
  | ok b out =>
    constructor
    · intro h
      cases h
      exact ⟨out, rfl, rfl⟩
    · rintro ⟨_, ⟨⟩, rfl⟩
      rfl
  | error e out => simp

theorem fold_eq_ok_iff {e : Event} {u : Unit} :
    fold e s = .ok u s' ↔
      ∃ f, Folding.event e s.folder = .ok () f ∧ { s with folder := f } = s' := by
  unfold fold
  cases Folding.event e s.folder with
  | ok _ f =>
    constructor
    · intro h
      cases h
      exact ⟨f, rfl, rfl⟩
    · rintro ⟨_, ⟨⟩, rfl⟩
      rfl
  | error e f => simp

theorem count_eq_ok_iff {n : Nat} {c : UInt32} :
    count n s = .ok c s' ↔ n < 0x100000000 ∧ n.toUInt32 = c ∧ s = s' := by
  by_cases h : n < 0x100000000
  · simp [count, Folder.countOf, h]
  · simp [count, Folder.countOf, h]

/-- A step that does not fold. -/
def Keeps (step : Encoder Unit) (p : Prop) : Prop :=
  ∀ {s s'}, step s = .ok () s' → p ∧ s'.folder = s.folder

theorem Keeps.write {step : Writer Unit} {p : Prop} (h : ∀ {out out'}, step out = .ok () out' → p) :
    Keeps (Encoder.write step) p := by
  intro s s' hok
  obtain ⟨out, hstep, rfl⟩ := write_eq_ok_iff.mp hok
  exact ⟨h hstep, rfl⟩

theorem Keeps.put {bytes : Bytes} : Keeps (Encoder.put bytes) True :=
  Keeps.write fun _ => trivial

/-- A step that succeeds has added certain octets to its output. -/
structure Puts (step : Encoder α) (bytes : Bytes) : Prop where
  of_ok : ∀ {s a s'}, step s = .ok a s' → s'.output = s.output.append bytes

namespace Puts

variable {β : Type} {step : Encoder α} {next : α → Encoder β} {bytes more : Bytes}

theorem pure {a : α} : Puts (pure a : Encoder α) [] where
  of_ok hok := by cases hok; rfl

theorem bind (h : Puts step bytes) (hnext : ∀ a, Puts (next a) more) :
    Puts (step >>= next) (bytes ++ more) where
  of_ok hok := by
    obtain ⟨a, s₁, hstep, hok⟩ := Steps.bind_eq_ok_iff.mp hok
    rw [(hnext a).of_ok hok, h.of_ok hstep, Output.append_append]

/-- A step that adds nothing, before one that may. -/
theorem bind_nil (h : Puts step []) (hnext : ∀ a, Puts (next a) more) : Puts (step >>= next) more :=
  bind h hnext

/-- A step that adds nothing, after one that may. -/
theorem bind_last (h : Puts step bytes) (hnext : ∀ a, Puts (next a) []) :
    Puts (step >>= next) bytes := by
  have hbind := bind h hnext
  rwa [List.append_nil] at hbind

theorem write {step : Writer α}
    (h : ∀ {out a out'}, step out = .ok a out' → out' = out.append bytes) :
    Puts (Encoder.write step) bytes where
  of_ok hok := by
    obtain ⟨out, hstep, rfl⟩ := write_eq_ok_iff.mp hok
    exact h hstep

theorem fold {e : Event} : Puts (Encoder.fold e) [] where
  of_ok hok := by
    obtain ⟨f, -, rfl⟩ := fold_eq_ok_iff.mp hok
    rfl

theorem count {n : Nat} : Puts (Encoder.count n) [] where
  of_ok hok := by
    obtain ⟨-, -, rfl⟩ := count_eq_ok_iff.mp hok
    rfl

end Puts

end Encoder

/-! ## Whole values -/

/-- A step of encoding that succeeds has folded a tree, which is such that something holds. -/
structure Requires (step : Encoder Unit) (t : Tree) (p : Prop) : Prop where
  of_ok : ∀ {s s'}, step s = .ok () s' → p ∧ Folding.tree t s.folder = .ok () s'.folder

namespace Requires

open Encoder

variable {step : Encoder Unit} {t : Tree} {p : Prop} {s s' : Encoding}

theorem mono {q : Prop} (h : Requires step t p) (hq : p → q) : Requires step t q where
  of_ok hok := (h.of_ok hok).imp_left hq

/-- A scalar that is folded and then written. -/
theorem scalar {e : Event} (hevent : Folding.tree t = Folding.event e) (h : Keeps step p) :
    Requires (do Encoder.fold e; step) t p where
  of_ok hok := by
    obtain ⟨_, s₁, hfold, hstep⟩ := Steps.bind_eq_ok_iff.mp hok
    obtain ⟨f, hf, rfl⟩ := fold_eq_ok_iff.mp hfold
    obtain ⟨hp, hfolder⟩ := h hstep
    rw [hevent, hfolder]
    exact ⟨hp, hf⟩

/-- A scalar that is written and then folded. -/
theorem scalarAfter {e : Event} (hevent : Folding.tree t = Folding.event e) (h : Keeps step p) :
    Requires (do step; Encoder.fold e) t p where
  of_ok hok := by
    obtain ⟨_, s₁, hstep, hfold⟩ := Steps.bind_eq_ok_iff.mp hok
    obtain ⟨f, hf, rfl⟩ := fold_eq_ok_iff.mp hfold
    obtain ⟨hp, hfolder⟩ := h hstep
    rw [hevent, ← hfolder]
    exact ⟨hp, hf⟩

/-- What stands before a value and does not fold. -/
theorem after {q : Prop} {next : Encoder Unit} (hstep : Keeps step q) (h : Requires next t p) :
    Requires (do step; next) t (q ∧ p) where
  of_ok hok := by
    obtain ⟨_, s₁, hok, hnext⟩ := Steps.bind_eq_ok_iff.mp hok
    obtain ⟨hq, hfolder⟩ := hstep hok
    obtain ⟨hp, htree⟩ := h.of_ok hnext
    rw [hfolder] at htree
    exact ⟨⟨hq, hp⟩, htree⟩

/-! ### Loops -/

/-- A loop that has come to its end has folded every item. -/
theorem items (W : Nat → List Tree → Encoder Unit) (w : Nat → Tree → Encoder Unit)
    (p : Tree → Prop) (hnil : ∀ i, W i [] = pure ())
    (hcons : ∀ i item items, W i (item :: items) = (do w i item; W (i + 1) items))
    {items : List Tree} (h : ∀ i, ∀ t ∈ items, Requires (w i t) t (p t)) (i : Nat)
    (hok : W i items s = .ok () s') :
    (∀ t ∈ items, p t) ∧ Folding.trees items s.folder = .ok () s'.folder := by
  induction items generalizing i s with
  | nil =>
    rw [hnil] at hok
    cases hok
    exact ⟨by simp, rfl⟩
  | cons item items ih =>
    rw [hcons] at hok
    obtain ⟨_, s₁, hitem, hrest⟩ := Steps.bind_eq_ok_iff.mp hok
    obtain ⟨hp, htree⟩ := (h i item (List.mem_cons_self ..)).of_ok hitem
    obtain ⟨hall, htrees⟩ := ih (fun i t ht => h i t (List.mem_cons_of_mem _ ht)) (i + 1) hrest
    refine ⟨List.forall_mem_cons.mpr ⟨hp, hall⟩, ?_⟩
    rw [Folding.trees, Steps.bind_ok htree, htrees]

/-- A loop that has come to its end has folded every pair. -/
theorem pairs (W : Nat → List (Bytes × Tree) → Encoder Unit) (head : Nat → Bytes → Encoder Unit)
    (w : Bytes → Tree → Encoder Unit) (q : Bytes → Prop) (p : Bytes → Tree → Prop)
    (hnil : ∀ i, W i [] = pure ())
    (hcons : ∀ i k value pairs,
      W i ((k, value) :: pairs) = (do head i k; w k value; W (i + 1) pairs))
    (hhead : ∀ {i k s s'}, head i k s = .ok () s' →
      q k ∧ Folding.event (.key k) s.folder = .ok () s'.folder)
    {pairs : List (Bytes × Tree)} (h : ∀ kv ∈ pairs, Requires (w kv.1 kv.2) kv.2 (p kv.1 kv.2))
    (i : Nat) (hok : W i pairs s = .ok () s') :
    (∀ kv ∈ pairs, q kv.1 ∧ p kv.1 kv.2) ∧ Folding.members pairs s.folder = .ok () s'.folder := by
  induction pairs generalizing i s with
  | nil =>
    rw [hnil] at hok
    cases hok
    exact ⟨by simp, rfl⟩
  | cons pair pairs ih =>
    obtain ⟨k, value⟩ := pair
    rw [List.forall_mem_cons] at h
    rw [hcons] at hok
    obtain ⟨_, s₁, hkey, hrest⟩ := Steps.bind_eq_ok_iff.mp hok
    obtain ⟨_, s₂, hvalue, hrest⟩ := Steps.bind_eq_ok_iff.mp hrest
    obtain ⟨hq, hevent⟩ := hhead hkey
    obtain ⟨hp, htree⟩ := h.1.of_ok hvalue
    obtain ⟨hall, hmembers⟩ := ih h.2 (i + 1) hrest
    refine ⟨List.forall_mem_cons.mpr ⟨⟨hq, hp⟩, hall⟩, ?_⟩
    rw [Folding.members, Steps.bind_ok hevent, Steps.bind_ok htree, hmembers]

/-! ### Containers -/

/-- A list was folded if its beginning, its items and its end were. -/
theorem tree_list {items : List Tree} {f f₁ f₂ f₃ : Folder} (hlen : items.length < 0x100000000)
    (hbegin : Folding.event (.beginList (some items.length.toUInt32)) f = .ok () f₁)
    (hitems : Folding.trees items f₁ = .ok () f₂) (hend : Folding.event .endList f₂ = .ok () f₃) :
    Folding.tree (.list items) f = .ok () f₃ := by
  rw [Folding.tree, Steps.bind_ok (Folder.count_ok hlen), Steps.bind_ok hbegin,
    Steps.bind_ok hitems, hend]

theorem tree_map {pairs : List (Bytes × Tree)} {f f₁ f₂ f₃ : Folder}
    (hlen : pairs.length < 0x100000000)
    (hbegin : Folding.event (.beginMap (some pairs.length.toUInt32)) f = .ok () f₁)
    (hpairs : Folding.members pairs f₁ = .ok () f₂) (hend : Folding.event .endMap f₂ = .ok () f₃) :
    Folding.tree (.map pairs) f = .ok () f₃ := by
  rw [Folding.tree, Steps.bind_ok (Folder.count_ok hlen), Steps.bind_ok hbegin,
    Steps.bind_ok hpairs, hend]

/-- What is counted and begun is within the numbers there are, and the rest goes on from there. -/
theorem begun {n : Nat} {e : UInt32 → Event} {rest : UInt32 → Encoder Unit}
    (hok : (do
      let count ← Encoder.count n
      Encoder.fold (e count)
      rest count) s = .ok () s') :
    n < 0x100000000 ∧ ∃ f, Folding.event (e n.toUInt32) s.folder = .ok () f ∧
      rest n.toUInt32 { s with folder := f } = .ok () s' := by
  obtain ⟨count, s₁, hcount, hok⟩ := Steps.bind_eq_ok_iff.mp hok
  obtain ⟨_, s₂, hbegin, hrest⟩ := Steps.bind_eq_ok_iff.mp hok
  obtain ⟨hlen, rfl, rfl⟩ := count_eq_ok_iff.mp hcount
  obtain ⟨f, hf, rfl⟩ := fold_eq_ok_iff.mp hbegin
  exact ⟨hlen, f, hf, hrest⟩

/-- A list that is counted and begun, before what folds its items and its end. -/
theorem list {items : List Tree} {rest : UInt32 → Encoder Unit}
    (h : ∀ {count s s'}, rest count s = .ok () s' → p ∧ ∃ f,
      Folding.trees items s.folder = .ok () f ∧ Folding.event .endList f = .ok () s'.folder) :
    Requires (do
      let count ← Encoder.count items.length
      Encoder.fold (.beginList (some count))
      rest count) (.list items) p where
  of_ok hok := by
    obtain ⟨hlen, f₁, hf₁, hrest⟩ := begun hok
    obtain ⟨hp, f₂, htrees, hend⟩ := h hrest
    exact ⟨hp, tree_list hlen hf₁ htrees hend⟩

/-- A map that is counted and begun, before what folds its pairs and its end. -/
theorem map {pairs : List (Bytes × Tree)} {rest : UInt32 → Encoder Unit}
    (h : ∀ {count s s'}, rest count s = .ok () s' → p ∧ ∃ f,
      Folding.members pairs s.folder = .ok () f ∧ Folding.event .endMap f = .ok () s'.folder) :
    Requires (do
      let count ← Encoder.count pairs.length
      Encoder.fold (.beginMap (some count))
      rest count) (.map pairs) p where
  of_ok hok := by
    obtain ⟨hlen, f₁, hf₁, hrest⟩ := begun hok
    obtain ⟨hp, f₂, hmembers, hend⟩ := h hrest
    exact ⟨hp, tree_map hlen hf₁ hmembers hend⟩

/-! ### Whole documents -/

/-- A tree that was encoded fits the limit. -/
theorem run {o : FoldOptions} {e : Encoded} (h : Requires step t p)
    (hok : Encoder.run step o = .ok e) : p ∧ t.Countable ∧ t.depth ≤ o.depthLimit := by
  unfold Encoder.run at hok
  cases hstep : step ⟨Output.empty, .start .encode o⟩ with
  | error e s => rw [hstep] at hok; cases hok
  | ok _ s =>
    obtain ⟨hp, htree⟩ := h.of_ok hstep
    exact ⟨hp, Folding.tree_start_ok htree⟩

end Requires

end TreeDigest
