import Mathlib.Data.List.Forall2
import TreeDigest.Proofs.Generator

/-!
# What a generator promises

A generator is asked for one document after the other, and each is made of the words that
are left. A source may have any words to give, as its state may be any, so what is promised
holds of whatever is drawn, and of every document of a row.

The loops are bounded here by numbers, and the bounds are no part of what they do: a key
that was seen is lengthened until it is a new one, and the root takes children until the
budget is spent. Both come to an end within their bounds, and greater bounds change
nothing.
-/

namespace TreeDigest.Generator

open TreeDigest.Random
open Draw (Always)

/-! ## Documents -/

/-- What is promised of a key. -/
structure FitKey (k : Bytes) : Prop where
  nonempty : k ≠ []
  ascii : ∀ b ∈ k, 0 < b.toNat ∧ b.toNat < 0x80
  notZero : k ≠ [0x30]

/-- What is promised of the root of any tree in a document. -/
def Fit : Tree → Prop
  | .uint u => u.toNat ≤ 0x7FFFFFFFFFFFFFFF
  | .double bits => Binary.double.isFinite bits.toNat = true
  | .text octets => octets.length ≤ 24 ∧ ∀ b ∈ octets, 0x20 ≤ b.toNat ∧ b.toNat < 0x7F
  | .map pairs => (pairs.map Prod.fst).Nodup ∧ ∀ kv ∈ pairs, FitKey kv.1
  | _ => True

/-- What is promised of a document of a size. -/
structure Promised (size : Nat) (t : Tree) : Prop where
  root : ∃ pairs, t = .map pairs
  nodes : t.nodes = max size 1
  depth : t.depth ≤ 7
  fit : t.All Fit

theorem IsName.fitKey {k : Bytes} (h : IsName k) : FitKey k where
  nonempty := by
    obtain ⟨b, tail, rfl, -⟩ := h.letter
    exact List.cons_ne_nil b tail
  ascii b hb := by
    have hprintable := h.printable b hb
    omega
  notZero := by
    -- a key begins with a letter, and a digit is none
    obtain ⟨b, tail, rfl, hletter⟩ := h.letter
    rintro ⟨⟩
    exact absurd hletter (by decide)

theorem PortableAt.fit {t : Tree} (h : PortableAt t) : Fit t := by
  cases t with
  | uint u => exact Nat.le_of_lt_succ h
  | double bits => exact h
  | text octets => exact h
  | map pairs =>
    exact ⟨h.distinct, fun kv hkv => (h.names kv.1 (List.mem_map_of_mem hkv)).fitKey⟩
  | _ => trivial

/-- Every document is as promised. -/
theorem tree_promised (size : Nat) : (tree size).Always (Promised size) :=
  (tree_always size).mono fun _ ⟨hroot, hportable, hdepth, hnodes⟩ =>
    ⟨hroot, hnodes, hdepth, hportable.mono fun _ => PortableAt.fit⟩

/-- What every draw of a row promises holds of all that is drawn. -/
theorem mapM_always {α β : Type} {draw : α → Draw β} {p : α → β → Prop}
    (h : ∀ x, (draw x).Always (p x)) (xs : List α) : (xs.mapM draw).Always (List.Forall₂ p xs) := by
  induction xs with
  | nil => exact .pure .nil
  | cons x xs ih =>
    rw [List.mapM_cons]
    exact .bind (h x) fun y hy => .bind ih fun ys hys => .pure (.cons hy hys)

/-! ## Keys -/

section Keys

variable {seen : Std.HashSet Bytes} {ending key : Bytes}

/-- A key with so many endings. -/
def lengthened (ending key : Bytes) (i : Nat) : Bytes := key ++ (List.replicate i ending).flatten

theorem lengthened_succ (ending key : Bytes) (i : Nat) :
    lengthened ending (key ++ ending) i = lengthened ending key (i + 1) := by
  rw [lengthened, lengthened, List.replicate_succ, List.flatten_cons, List.append_assoc]

/-- A key is lengthened as long as it was seen and there are tries. -/
theorem tellApart_lengthened (seen : Std.HashSet Bytes) (ending key : Bytes) (tries : Nat) :
    ∃ i ≤ tries, tellApart seen ending key tries = lengthened ending key i ∧
      ∀ j < i, seen.contains (lengthened ending key j) = true := by
  have hzero : ∀ k : Bytes, k = lengthened ending k 0 := fun k => (List.append_nil k).symm
  induction tries generalizing key with
  | zero => exact ⟨0, Nat.le_refl _, hzero key, nofun⟩
  | succ tries ih =>
    rw [tellApart]
    split
    · rename_i hkey
      obtain ⟨i, hi, htell, hseen⟩ := ih (key ++ ending)
      refine ⟨i + 1, Nat.succ_le_succ hi, htell.trans (lengthened_succ ending key i), ?_⟩
      intro j hj
      cases j with
      | zero => exact hzero key ▸ hkey
      | succ j =>
        rw [← lengthened_succ]
        exact hseen j (Nat.lt_of_succ_lt_succ hj)
    · exact ⟨0, Nat.zero_le _, hzero key, nofun⟩

/-- With as many tries as there are keys, and with more, a new key is found. -/
theorem tellApart_new (key : Bytes) (hending : ending ≠ []) {tries : Nat} (h : seen.size ≤ tries) :
    seen.contains (tellApart seen ending key tries) = false := by
  have hlength : (seen.toList ++ List.replicate (tries - seen.size) key).length = tries := by
    rw [List.length_append, List.length_replicate, Std.HashSet.length_toList]
    omega
  rw [← hlength]
  exact tellApart_fresh (fun k hk => List.mem_append_left _ (Std.HashSet.mem_toList.mpr hk)) hending

/-- **The first new key is the one that is found**, within as many tries as there are keys. -/
theorem tellApart_first (seen : Std.HashSet Bytes) (key : Bytes) (hending : ending ≠ []) :
    ∃ i ≤ seen.size, seen.contains (lengthened ending key i) = false ∧
      (∀ j < i, seen.contains (lengthened ending key j) = true) ∧
      ∀ tries ≥ seen.size, tellApart seen ending key tries = lengthened ending key i := by
  obtain ⟨i, hi, htell, hseen⟩ := tellApart_lengthened seen ending key seen.size
  have hnew : seen.contains (lengthened ending key i) = false :=
    htell ▸ tellApart_new key hending (Nat.le_refl _)
  refine ⟨i, hi, hnew, hseen, fun tries htries => ?_⟩
  obtain ⟨i', -, htell', hseen'⟩ := tellApart_lengthened seen ending key tries
  have hnew' : seen.contains (lengthened ending key i') = false :=
    htell' ▸ tellApart_new key hending htries
  -- each is the first of its tries, so neither comes before the other
  have hle : i ≤ i' := Nat.not_lt.mp fun hlt => by
    rw [hseen i' hlt] at hnew'
    cases hnew'
  have hle' : i' ≤ i := Nat.not_lt.mp fun hlt => by
    rw [hseen' i hlt] at hnew
    cases hnew
  rw [htell', Nat.le_antisymm hle hle']

/-- A drawn key is new, so that the next one has a try more. -/
theorem size_insert_freshKey (seen : Std.HashSet Bytes) :
    (freshKey seen seen.size).Always fun k =>
      seen.contains k = false ∧ (seen.insert k).size = seen.size + 1 := by
  have hfresh : (freshKey seen seen.toList.length).Always _ :=
    freshKey_always fun k hk => Std.HashSet.mem_toList.mpr hk
  rw [Std.HashSet.length_toList] at hfresh
  refine hfresh.mono fun k hk => ⟨hk.2.1, ?_⟩
  rw [Std.HashSet.size_insert, if_neg]
  rw [← Std.HashSet.contains_iff_mem, hk.2.1]
  exact Bool.false_ne_true

end Keys

/-! ## Budgets -/

section Budgets

variable {child : Growing Tree} {seen : Std.HashSet Bytes} {index width n : Nat}
  {pairs : List (Bytes × Tree)}

/-- A step that leaves less of a budget than there was. -/
def Spends (child : Growing Tree) : Prop :=
  ∀ n, 0 < n → Growing.Always child n fun _ left => left < n

/-- **A node spends some of its budget.** -/
theorem node_spends (levels : Nat) : Spends (node levels) := fun n hn =>
  (node_grows levels n hn).mono fun t left h => by
    have hpos := t.nodes_pos
    omega

theorem pairsOnto_spent (child : Growing Tree) (width : Nat) :
    pairsOnto child seen index pairs width 0 = pure (pairs.reverse, 0) := by
  cases width <;> rfl

theorem pairsOnto_succ (hn : 0 < n) (source : Source) :
    pairsOnto child seen index pairs (width + 1) n source =
      let key := freshKey seen index source
      let value := child n key.2
      pairsOnto child (seen.insert key.1) (index + 1) ((key.1, value.1.1) :: pairs) width value.1.2
        value.2 := by
  rw [pairsOnto]
  show (if n = 0 then _ else _ : Growing (List (Bytes × Tree))) n source = _
  rw [if_neg (Nat.ne_of_gt hn)]
  rfl

/-- **With more width than budget, pairs go on until the budget is spent.** -/
theorem pairsOnto_width (hchild : Spends child) (h : n ≤ width) (source : Source) :
    pairsOnto child seen index pairs width n source =
      pairsOnto child seen index pairs n n source := by
  induction n using Nat.strong_induction_on generalizing seen index pairs width source with
  | _ n ih =>
    cases n with
    | zero => rw [pairsOnto_spent, pairsOnto_spent]
    | succ n =>
      cases width with
      | zero => cases h
      | succ width =>
        have hleft := (hchild (n + 1) (Nat.succ_pos n)).apply (freshKey seen index source).2
        rw [pairsOnto_succ (Nat.succ_pos n), pairsOnto_succ (Nat.succ_pos n)]
        dsimp only
        rw [ih _ hleft (by omega), ih _ hleft (Nat.le_of_lt_succ hleft)]

end Budgets

/-- **The root takes children until its budget is spent**, whatever more there is room for. -/
theorem tree_spends {size width : Nat} (h : size - 1 ≤ width) (source : Source) :
    ∃ pairs, (((pairsOnto (node nesting) ∅ 0 [] width).run (size - 1)).run source).1 = (pairs, 0) ∧
      ((tree size).run source).1 = .map pairs := by
  have hpairs := pairsOnto_always (node_grows nesting) (size - 1) (size - 1) seen_empty entries_nil
  have hspent := (hpairs.apply source).2.1 (Nat.le_refl _)
  have hwidth : pairsOnto (node nesting) ∅ 0 [] width (size - 1) source =
      pairsOnto (node nesting) ∅ 0 [] (size - 1) (size - 1) source :=
    pairsOnto_width (node_spends nesting) h source
  refine ⟨(pairsOnto (node nesting) ∅ 0 [] (size - 1) (size - 1) source).1.1, ?_, rfl⟩
  exact (congrArg Prod.fst hwidth).trans (Prod.ext rfl hspent)

/-! ## At the top -/

/--
**A generator keeps its promises, and its loops come to an end.** From any state of the source
and for any sizes in turn, every document is as promised. A key that was seen is lengthened to
the first new one, which is found within as many tries as there are keys, and a generator
has as many. A node spends some of its budget, so the root is done when it has taken as many
children as its budget, and more room for them makes no difference.
-/
theorem generator_keeps_promises :
    (∀ (source : Source) (sizes : List Nat),
      List.Forall₂ Promised sizes ((sizes.mapM tree).run source).1) ∧
    (∀ (seen : Std.HashSet Bytes) (ending key : Bytes), ending ≠ [] →
      ∃ i ≤ seen.size, seen.contains (lengthened ending key i) = false ∧
        (∀ j < i, seen.contains (lengthened ending key j) = true) ∧
        ∀ tries ≥ seen.size, tellApart seen ending key tries = lengthened ending key i) ∧
    (∀ (seen : Std.HashSet Bytes) (source : Source),
      seen.contains ((freshKey seen seen.size).run source).1 = false ∧
        (seen.insert ((freshKey seen seen.size).run source).1).size = seen.size + 1) ∧
    (∀ (levels budget : Nat) (source : Source), 0 < budget →
      (((node levels).run budget).run source).1.2 < budget) ∧
    ∀ (size width : Nat) (source : Source), size - 1 ≤ width →
      ∃ pairs, (((pairsOnto (node nesting) ∅ 0 [] width).run (size - 1)).run source).1 =
          (pairs, 0) ∧
        ((tree size).run source).1 = .map pairs :=
  ⟨fun source sizes => (mapM_always tree_promised sizes).apply source,
    fun seen _ key hending => tellApart_first seen key hending,
    fun seen source => (size_insert_freshKey seen).apply source,
    fun levels budget source hbudget => (node_spends levels budget hbudget).apply source,
    fun _ _ source hwidth => tree_spends hwidth source⟩

/-- Two documents in turn, a key that was seen, and a root with room for more than its budget. -/
theorem generator_keeps_promises_twice :
    List.Forall₂ Promised [3, 0] (([3, 0].mapM tree).run (Source.ofSeed 7)).1 ∧
    (∃ i ≤ ({[0x61]} : Std.HashSet Bytes).size,
      ({[0x61]} : Std.HashSet Bytes).contains (lengthened [0x5F, 0x31] [0x61] i) = false) ∧
    (((node 2).run 5).run (Source.ofSeed 7)).1.2 < 5 ∧
    ∃ pairs, (((pairsOnto (node nesting) ∅ 0 [] 9).run 2).run (Source.ofSeed 7)).1 = (pairs, 0) ∧
      ((tree 3).run (Source.ofSeed 7)).1 = .map pairs := by
  obtain ⟨hdocuments, hkeys, -, hnodes, hroots⟩ := generator_keeps_promises
  obtain ⟨i, hi, hnew, -⟩ := hkeys {[0x61]} [0x5F, 0x31] [0x61] (List.cons_ne_nil _ _)
  exact ⟨hdocuments (.ofSeed 7) [3, 0], ⟨i, hi, hnew⟩, hnodes 2 5 (.ofSeed 7) (by decide),
    hroots 3 9 (.ofSeed 7) (by decide)⟩

end TreeDigest.Generator
