import TreeDigest.Codec
import TreeDigest.Proofs.Fold.Refusals
import TreeDigest.Proofs.Output.Requires

/-!
# Why an encoder fails

An encoder walks its tree, and what it does to its folder is what a walk does that
writes nothing. So it fails for one of two reasons: its format has no form for a piece of
content, or the walk fails there as well. `Performs` says so of a step and of what it does
to the folder, and goes through sequences and loops.

A walk over a tree whose entries can be counted fails only beyond the limit.
-/

namespace TreeDigest

/-- A codec has no form for something. -/
def Error.Refusal (codec : String) (e : Error) : Prop :=
  ∃ what, e = .encode (.unrepresentable codec what)

/-- The same of an error of a writer. -/
def EncodeError.Refusal (codec : String) (e : EncodeError) : Prop :=
  ∃ what, e = .unrepresentable codec what

theorem EncodeError.Refusal.encode {codec : String} {e : EncodeError} (h : e.Refusal codec) :
    (Error.encode e).Refusal codec := by
  obtain ⟨what, rfl⟩ := h
  exact ⟨what, rfl⟩

/--
A step does something to the folder in its state, with the same result. It fails if the
folder does, and besides for what has no form.
-/
structure Performs {σ α : Type} (codec : String) (folder : σ → Folder) (step : EStateM Error σ α)
    (act : Folding α) : Prop where
  ok : ∀ {s a s'}, step s = .ok a s' → act (folder s) = .ok a (folder s')
  error : ∀ {s e s'}, step s = .error e s' → e.Refusal codec ∨ ∃ f, act (folder s) = .error e f

namespace Performs

variable {σ α β : Type} {codec : String} {folder : σ → Folder} {step : EStateM Error σ α}
  {act : Folding α}

/-! ## Sequences -/

theorem pure (a : α) : Performs codec folder (pure a : EStateM Error σ α) (pure a) where
  ok hok := by cases hok; rfl
  error herror := by cases herror

theorem bind {next : α → EStateM Error σ β} {act' : α → Folding β}
    (h : Performs codec folder step act) (hnext : ∀ a, Performs codec folder (next a) (act' a)) :
    Performs codec folder (step >>= next) (act >>= act') where
  ok hok := by
    obtain ⟨a, s₁, hstep, hok⟩ := Steps.bind_eq_ok_iff.mp hok
    rw [Steps.bind_ok (h.ok hstep)]
    exact (hnext a).ok hok
  error herror := by
    rcases Steps.bind_eq_error_iff.mp herror with hstep | ⟨a, s₁, hstep, herror⟩
    · exact (h.error hstep).imp_right Steps.bind_fails
    · rw [Steps.bind_ok (h.ok hstep)]
      exact (hnext a).error herror

/-- A step that leaves the folder alone. -/
theorem silent {step : EStateM Error σ Unit}
    (hok : ∀ {s s'}, step s = .ok () s' → folder s' = folder s)
    (herror : ∀ {s e s'}, step s = .error e s' → e.Refusal codec) :
    Performs codec folder step (Pure.pure ()) where
  ok h := by rw [hok h]; rfl
  error h := .inl (herror h)

/-- A step that leaves the folder alone, before one that may not. -/
theorem before {step : EStateM Error σ Unit} {next : EStateM Error σ α}
    (h : Performs codec folder step (Pure.pure ())) (hnext : Performs codec folder next act) :
    Performs codec folder (do step; next) act := bind h fun _ => hnext

/-- A step that leaves the folder alone, after one that may not. -/
theorem after {step next : EStateM Error σ Unit} {act : Folding Unit}
    (h : Performs codec folder step act) (hnext : Performs codec folder next (Pure.pure ())) :
    Performs codec folder (do step; next) act := by
  have hbind := bind h fun _ => hnext
  rwa [show (do act; Pure.pure ()) = act from bind_pure_unit] at hbind

/-! ## Loops -/

theorem items (W : Nat → List Tree → EStateM Error σ Unit) (w : Nat → Tree → EStateM Error σ Unit)
    (hnil : ∀ i, W i [] = Pure.pure ())
    (hcons : ∀ i item items, W i (item :: items) = (do w i item; W (i + 1) items))
    {items : List Tree} (h : ∀ i, ∀ t ∈ items, Performs codec folder (w i t) (Folding.tree t))
    (i : Nat) : Performs codec folder (W i items) (Folding.trees items) := by
  induction items generalizing i with
  | nil => exact hnil i ▸ pure ()
  | cons item items ih =>
    rw [hcons]
    exact bind (h i item (List.mem_cons_self ..)) fun _ =>
      ih (fun i t ht => h i t (List.mem_cons_of_mem _ ht)) (i + 1)

theorem pairs (W : Nat → List (Bytes × Tree) → EStateM Error σ Unit)
    (head : Nat → Bytes → EStateM Error σ Unit) (w : Bytes → Tree → EStateM Error σ Unit)
    (hnil : ∀ i, W i [] = Pure.pure ())
    (hcons : ∀ i k value pairs,
      W i ((k, value) :: pairs) = (do head i k; w k value; W (i + 1) pairs))
    (hhead : ∀ i k, Performs codec folder (head i k) (Folding.event (.key k)))
    {pairs : List (Bytes × Tree)}
    (h : ∀ kv ∈ pairs, Performs codec folder (w kv.1 kv.2) (Folding.tree kv.2)) (i : Nat) :
    Performs codec folder (W i pairs) (Folding.members pairs) := by
  induction pairs generalizing i with
  | nil => exact hnil i ▸ pure ()
  | cons pair pairs ih =>
    obtain ⟨k, value⟩ := pair
    rw [List.forall_mem_cons] at h
    rw [hcons]
    exact bind (hhead i k) fun _ => bind h.1 fun _ => ih h.2 (i + 1)

end Performs

/-! ## Steps of encoding -/

namespace Encoder

variable {codec : String}

/-- A step of an encoder with the fold of what it writes. -/
abbrev Performs {α : Type} (codec : String) (step : Encoder α) (act : Folding α) : Prop :=
  TreeDigest.Performs codec Encoding.folder step act

theorem performs_write {step : Writer Unit} (h : Steps.FailsWith (EncodeError.Refusal codec) step) :
    Performs codec (write step) (pure ()) :=
  .silent
    (fun hok => by
      obtain ⟨out, -, rfl⟩ := write_eq_ok_iff.mp hok
      rfl)
    fun {s e s'} herror => by
      unfold write at herror
      split at herror
      · cases herror
      · rename_i hstep
        cases herror
        exact (h.error hstep).encode

theorem performs_put (bytes : Bytes) : Performs codec (put bytes) (pure ()) :=
  performs_write (.modify _)

theorem performs_fold (e : Event) : Performs codec (fold e) (Folding.event e) where
  ok hok := by
    obtain ⟨f, hevent, rfl⟩ := fold_eq_ok_iff.mp hok
    exact hevent
  error {s fault s'} herror := by
    unfold fold at herror
    split at herror
    · cases herror
    · rename_i f hevent
      cases herror
      exact .inr ⟨f, hevent⟩

theorem performs_count (n : Nat) : Performs codec (count n) (Folding.count n) where
  ok hok := by
    obtain ⟨hn, rfl, rfl⟩ := count_eq_ok_iff.mp hok
    exact Folder.count_ok hn
  error {s e s'} herror := by
    by_cases hn : n < 0x100000000
    · rw [count, Folder.countOf, if_pos hn] at herror
      cases herror
    · rw [count, Folder.countOf, if_neg hn] at herror
      cases herror
      exact .inr ⟨_, Folding.count_overflows hn⟩

end Encoder

/-! ## Whole trees -/

/-- What can come of a tree: its encoding, an obstacle in its content, or too deep containers. -/
inductive Written (codec : String) (limit : Nat) : Except Error Encoded → Prop
  | encoded (e : Encoded) : Written codec limit (.ok e)
  | unrepresentable (what : Obstacle) :
      Written codec limit (.error (.encode (.unrepresentable codec what)))
  | deep : Written codec limit (.error (.encode (.depthExceeded limit)))

theorem Error.Refusal.written {codec : String} {limit : Nat} {e : Error} (h : e.Refusal codec) :
    Written codec limit (.error e) := by
  obtain ⟨what, rfl⟩ := h
  exact .unrepresentable what

/-- What performs the walk over a tree ends with its digest, or is refused. -/
theorem Performs.finish {σ : Type} {codec : String} {folder : σ → Folder}
    {step : EStateM Error σ Unit} {t : Tree} {s : σ} {o : FoldOptions}
    (h : Performs codec folder step (Folding.tree t)) (ht : t.Countable)
    (hs : folder s = .start .encode o) :
    (∀ {s'}, step s = .ok () s' → ∃ digest, (folder s').finish = .ok digest) ∧
      ∀ {e s'}, step s = .error e s' →
        e.Refusal codec ∨ e = .encode (.depthExceeded o.depthLimit) := by
  have hwalk : foldTreeOn .encode t o = _ := foldTreeOn_eq_ite ht
  refine ⟨fun {s'} hok => ?_, fun {e s'} herror => (h.error herror).imp_right fun ⟨f, hf⟩ => ?_⟩
  · have htree : Folding.tree t (.start .encode o) = .ok () (folder s') := hs ▸ h.ok hok
    refine ⟨t.digest o, ?_⟩
    rw [foldTreeOn, htree, if_pos (Folding.tree_start_ok htree).2] at hwalk
    exact hwalk
  · have htree : Folding.tree t (.start .encode o) = .error e f := hs ▸ hf
    rw [foldTreeOn, htree] at hwalk
    dsimp only at hwalk
    split at hwalk
    · cases hwalk
    · cases hwalk
      rfl

/-- **An encoder that performs the walk over a tree writes it, or has a reason not to.** -/
theorem Performs.run {codec : String} {step : Encoder Unit} {t : Tree} {o : FoldOptions}
    (h : Encoder.Performs codec step (Folding.tree t)) (ht : t.Countable) :
    Written codec o.depthLimit (Encoder.run step o) := by
  obtain ⟨hok, herror⟩ := h.finish (s := ⟨Output.empty, .start .encode o⟩) ht rfl
  unfold Encoder.run
  cases hstep : step ⟨Output.empty, .start .encode o⟩ with
  | ok _ s =>
    obtain ⟨digest, hfinish⟩ := hok hstep
    dsimp only
    rw [hfinish]
    exact .encoded _
  | error e s =>
    rcases herror hstep with hrefusal | rfl
    · exact hrefusal.written
    · exact .deep

end TreeDigest
