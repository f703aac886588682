import TreeDigest.Proofs.Fold.Step

/-!
# Why a folder refuses an event

There are three reasons: no document has the event at that point, the containers nest
deeper than the limit, or a container has not the number of entries that it declared.
In particular a folder never says anything of how long an input is.
-/

namespace TreeDigest

/-- An error that a folder can give. -/
inductive Error.OfFold : Error → Prop where
  | violation (v : Violation) : OfFold (.protocol v)
  | depth (side : Side) (limit : Nat) : OfFold (side.depthExceeded limit)
  | count (declared actual : UInt32) : OfFold (.decode (.countMismatch declared actual))

namespace Steps

variable {ε σ α β : Type} {p : ε → Prop} {step : EStateM ε σ α}

/-- Whatever a step fails with has a property. -/
structure FailsWith (p : ε → Prop) (step : EStateM ε σ α) : Prop where
  error : ∀ {s e s'}, step s = .error e s' → p e

namespace FailsWith

theorem pure (a : α) : FailsWith p (pure a : EStateM ε σ α) := ⟨fun h => by cases h⟩

theorem throw {e : ε} (h : p e) : FailsWith p (throw e : EStateM ε σ α) :=
  ⟨fun he => by cases he; exact h⟩

/-- Nothing is done after a step that always fails. -/
theorem throw_bind {e : ε} {next : α → EStateM ε σ β} (h : p e) :
    FailsWith p ((MonadExcept.throw e : EStateM ε σ α) >>= next) := ⟨fun he => by cases he; exact h⟩

theorem get : FailsWith p (get : EStateM ε σ σ) := ⟨fun h => by cases h⟩

theorem set (s : σ) : FailsWith p (set s : EStateM ε σ PUnit) := ⟨fun h => by cases h⟩

theorem modify (g : σ → σ) : FailsWith p (modify g : EStateM ε σ PUnit) := ⟨fun h => by cases h⟩

theorem bind {next : α → EStateM ε σ β} (h : FailsWith p step) (hnext : ∀ a, FailsWith p (next a)) :
    FailsWith p (step >>= next) where
  error herror := by
    rcases bind_eq_error_iff.mp herror with hstep | ⟨a, _, -, hmore⟩
    · exact h.error hstep
    · exact (hnext a).error hmore

end FailsWith

end Steps

namespace Folding

open Steps (FailsWith)

theorem check_failsWith {e : Option Error} (h : ∀ e' ∈ e, e'.OfFold) :
    FailsWith Error.OfFold (check e) := by
  cases e with
  | none => exact .pure ()
  | some e => exact .throw (h e rfl)

theorem surplus_ofFold {declared : Option UInt32} {seen : UInt32} :
    ∀ e ∈ Folder.surplus? declared seen, e.OfFold := by
  intro e he
  cases declared with
  | none => cases he
  | some d =>
    rw [Folder.surplus?] at he
    split at he <;> cases he
    exact .count d seen

theorem mismatch_ofFold {declared : Option UInt32} {seen : UInt32} :
    ∀ e ∈ Folder.mismatch? declared seen, e.OfFold := by
  intro e he
  cases declared with
  | none => cases he
  | some d =>
    rw [Folder.mismatch?] at he
    split at he <;> cases he
    exact .count d seen

theorem expectValue_failsWith : FailsWith Error.OfFold expectValue := by
  refine .bind .get fun f => ?_
  dsimp only
  split
  · exact .throw_bind (.violation _)
  · split
    · exact .throw (.violation _)
    · exact .pure ()

theorem checkDepth_failsWith : FailsWith Error.OfFold checkDepth := by
  refine .bind .get fun f => ?_
  split
  · split
    · exact .throw (.depth .encode f.limit)
    · exact .throw (.depth .decode f.limit)
  · exact .pure ()

theorem closeValue_failsWith : FailsWith Error.OfFold closeValue := by
  refine .bind .get fun f => ?_
  dsimp only
  split
  · exact .set _
  · split
    · exact .throw_bind (.violation _)
    · exact .bind (.set _) fun _ => check_failsWith surplus_ofFold
  · split
    · exact .bind (.set _) fun _ => .throw_bind (.violation _)
    · exact .bind (.set _) fun _ => check_failsWith surplus_ofFold

theorem scalar_failsWith (p : Primitive) : FailsWith Error.OfFold (scalar p) :=
  .bind expectValue_failsWith fun _ => .bind (.modify _) fun _ => closeValue_failsWith

theorem beginList_failsWith (declared : Option UInt32) : FailsWith Error.OfFold (beginList declared) :=
  .bind expectValue_failsWith fun _ => .bind checkDepth_failsWith fun _ => .modify _

theorem beginMap_failsWith (declared : Option UInt32) : FailsWith Error.OfFold (beginMap declared) :=
  .bind expectValue_failsWith fun _ => .bind checkDepth_failsWith fun _ => .modify _

theorem key_failsWith (octets : Bytes) : FailsWith Error.OfFold (key octets) := by
  refine .bind .get fun f => ?_
  split
  · exact .throw (.violation _)
  · exact .set _
  · exact .set _
  · exact .throw (.violation _)

theorem endList_failsWith : FailsWith Error.OfFold endList := by
  refine .bind .get fun f => ?_
  split
  · exact .bind (.set _) fun _ => .bind (check_failsWith mismatch_ofFold) fun _ =>
      .bind (.modify _) fun _ => closeValue_failsWith
  · exact .throw (.violation _)
  · exact .throw (.violation _)

theorem endMap_failsWith : FailsWith Error.OfFold endMap := by
  refine .bind .get fun f => ?_
  split
  · exact .bind (.set _) fun _ => .throw (.violation _)
  · exact .bind (.set _) fun _ => .bind (check_failsWith mismatch_ofFold) fun _ =>
      .bind (.modify _) fun _ => .bind (.modify _) fun _ => closeValue_failsWith
  · exact .throw (.violation _)
  · exact .throw (.violation _)

/-- **Every event that a folder refuses it refuses for one of its own reasons.** -/
theorem event_failsWith (e : Event) : FailsWith Error.OfFold (event e) := by
  cases e with
  | key octets => exact key_failsWith octets
  | beginList declared => exact beginList_failsWith declared
  | beginMap declared => exact beginMap_failsWith declared
  | endList => exact endList_failsWith
  | endMap => exact endMap_failsWith
  | _ => exact scalar_failsWith _

end Folding

end TreeDigest
