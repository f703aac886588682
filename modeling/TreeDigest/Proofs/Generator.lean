import Mathlib.Algebra.Order.BigOperators.Group.List
import Mathlib.Data.List.Nodup
import Mathlib.Data.List.Perm.Subperm
import TreeDigest.Generator
import TreeDigest.Proofs.Decimal.Digits
import TreeDigest.Proofs.Random.Always
import TreeDigest.Proofs.Tree

/-!
# What is generated

A generated document is `Portable`: it holds nothing that some format has no form
for. That is so from any source of words, and every step spends exactly the nodes
that it adds, so that a document has as many as were asked for.

That keys are told apart is a matter of counting. Endings make a key longer, so the
keys that are tried all differ, and there is one more of them than there are keys to
be told apart from.
-/

namespace TreeDigest.Generator

open TreeDigest.Random
open Draw (Always)

/-! ## Portable documents -/

/-- A key begins with a letter and is printable ASCII. -/
structure IsName (k : Bytes) : Prop where
  letter : ∃ b tail, k = b :: tail ∧ 0x61 ≤ b.toNat
  printable : ∀ b ∈ k, 0x20 ≤ b.toNat ∧ b.toNat < 0x7F

/-- How long the keys of a map with `n` entries are at most. -/
def keyRoom (n : Nat) : Nat := greatestKey + n * (1 + (Bytes.decimal n).length)

/-- Keys that are told apart, and no longer than their number makes them. -/
structure Keys (keys : List Bytes) : Prop where
  distinct : keys.Nodup
  names : ∀ k ∈ keys, IsName k
  lengths : ∀ k ∈ keys, k.length ≤ keyRoom keys.length

/-- What every format can hold at the root of a tree. -/
def PortableAt : Tree → Prop
  | .uint u => u.toNat < 0x8000000000000000
  | .double bits => Binary.double.isFinite bits.toNat = true
  | .text octets => octets.length ≤ greatestText ∧ ∀ b ∈ octets, 0x20 ≤ b.toNat ∧ b.toNat < 0x7F
  | .map pairs => Keys (pairs.map Prod.fst)
  | _ => True

/-- Every format can hold a tree. -/
def Portable (t : Tree) : Prop := t.All PortableAt

theorem portable_list {items : List Tree} : Portable (.list items) ↔ ∀ t ∈ items, Portable t :=
  Tree.all_list.trans (and_iff_right trivial)

theorem portable_map {pairs : List (Bytes × Tree)} :
    Portable (.map pairs) ↔ Keys (pairs.map Prod.fst) ∧ ∀ kv ∈ pairs, Portable kv.2 :=
  Tree.all_map

/-! ## Keys -/

/-- A key that is not new after all its endings was tried with each number of them. -/
theorem contains_tellApart {seen : Std.HashSet Bytes} {ending : Bytes} {tries : Nat} {key : Bytes}
    (h : seen.contains (tellApart seen ending key tries) = true) :
    ∀ i ≤ tries, seen.contains (key ++ (List.replicate i ending).flatten) = true := by
  induction tries generalizing key with
  | zero =>
    intro i hi
    rw [Nat.le_zero.mp hi, List.replicate_zero, List.flatten_nil, List.append_nil]
    exact h
  | succ tries ih =>
    rw [tellApart] at h
    split at h
    · rename_i hkey
      intro i hi
      cases i with
      | zero =>
        rw [List.replicate_zero, List.flatten_nil, List.append_nil]
        exact hkey
      | succ i =>
        rw [List.replicate_succ, List.flatten_cons, ← List.append_assoc]
        exact ih h i (Nat.le_of_succ_le_succ hi)
    · rename_i hkey
      exact absurd h hkey

/-- **With as many endings as there are keys, a key is told apart from all of them.** -/
theorem tellApart_fresh {seen : Std.HashSet Bytes} {keys : List Bytes} {ending key : Bytes}
    (hseen : ∀ k, seen.contains k = true → k ∈ keys) (hending : ending ≠ []) :
    seen.contains (tellApart seen ending key keys.length) = false := by
  rw [← Bool.not_eq_true]
  intro h
  have htried := contains_tellApart h
  have hlength : ∀ i : Nat, (key ++ (List.replicate i ending).flatten).length =
      key.length + i * ending.length := by simp
  have hnodup : ((List.range (keys.length + 1)).map
      fun i => key ++ (List.replicate i ending).flatten).Nodup := by
    refine List.Nodup.map (fun i j hij => ?_) List.nodup_range
    have hlengths := congrArg List.length hij
    rw [hlength, hlength] at hlengths
    exact Nat.eq_of_mul_eq_mul_right (List.length_pos_iff.mpr hending) (Nat.add_left_cancel hlengths)
  have hsubset : ∀ k ∈ (List.range (keys.length + 1)).map
      fun i => key ++ (List.replicate i ending).flatten, k ∈ keys := by
    intro k hk
    obtain ⟨i, hi, rfl⟩ := List.mem_map.mp hk
    exact hseen _ (htried i (Nat.le_of_lt_succ (List.mem_range.mp hi)))
  have hcount := (List.subperm_of_subset hnodup hsubset).length_le
  rw [List.length_map, List.length_range] at hcount
  omega

theorem IsName.append {k ending : Bytes} (h : IsName k)
    (hending : ∀ b ∈ ending, 0x20 ≤ b.toNat ∧ b.toNat < 0x7F) : IsName (k ++ ending) where
  letter := by
    obtain ⟨b, tail, rfl, hb⟩ := h.letter
    exact ⟨b, tail ++ ending, rfl, hb⟩
  printable := List.forall_mem_append.mpr ⟨h.printable, hending⟩

theorem isName_tellApart {seen : Std.HashSet Bytes} {ending key : Bytes} {tries : Nat}
    (h : IsName key) (hending : ∀ b ∈ ending, 0x20 ≤ b.toNat ∧ b.toNat < 0x7F) :
    IsName (tellApart seen ending key tries) := by
  induction tries generalizing key with
  | zero => exact h
  | succ tries ih =>
    rw [tellApart]
    split
    · exact ih (h.append hending)
    · exact h

/-- The endings of keys are printable. -/
theorem ending_printable (index : Nat) :
    ∀ b ∈ 0x5F :: Bytes.decimal index, 0x20 ≤ b.toNat ∧ b.toNat < 0x7F := by
  refine List.forall_mem_cons.mpr ⟨by decide, fun b hb => ?_⟩
  have hdigit := Bytes.isDigit_of_mem_decimal hb
  rw [Bytes.isDigit, Bool.and_eq_true, decide_eq_true_eq, decide_eq_true_eq, UInt8.le_iff_toNat_le,
    UInt8.le_iff_toNat_le] at hdigit
  have hleast : (0x30 : UInt8).toNat = 0x30 := rfl
  have hgreatest : (0x39 : UInt8).toNat = 0x39 := rfl
  omega

theorem length_tellApart (seen : Std.HashSet Bytes) (ending key : Bytes) (tries : Nat) :
    (tellApart seen ending key tries).length ≤ key.length + tries * ending.length := by
  induction tries generalizing key with
  | zero => exact Nat.le_add_right _ _
  | succ tries ih =>
    rw [tellApart, Nat.succ_mul]
    split
    · refine Nat.le_trans (ih _) ?_
      rw [List.length_append]
      omega
    · omega

/-- A drawn key is a name, none of those seen and not too long. -/
theorem freshKey_always {seen : Std.HashSet Bytes} {keys : List Bytes}
    (hseen : ∀ k, seen.contains k = true → k ∈ keys) :
    (freshKey seen keys.length).Always fun k =>
      IsName k ∧ seen.contains k = false ∧ k.length ≤ keyRoom keys.length := by
  refine .bind (below_lt (by decide)) fun length hlength => ?_
  refine .bind (octets_among (by decide) (by decide) _) fun key hkey => ?_
  have hroom : (tellApart seen (0x5F :: Bytes.decimal keys.length) key keys.length).length ≤
      keyRoom keys.length := by
    refine Nat.le_trans (length_tellApart _ _ _ _) ?_
    rw [hkey.1, keyRoom, List.length_cons, Nat.add_comm 1]
    omega
  refine .pure ⟨isName_tellApart ⟨?_, fun b hb => ?_⟩ (ending_printable _),
    tellApart_fresh hseen (List.cons_ne_nil _ _), hroom⟩
  · cases key with
    | nil => exact absurd hkey.1 (by simp)
    | cons b tail => exact ⟨b, tail, rfl, (hkey.2 b (List.mem_cons_self ..)).1⟩
  · have := hkey.2 b hb
    rw [Among] at this
    omega

theorem keyRoom_mono {m n : Nat} (h : m ≤ n) : keyRoom m ≤ keyRoom n :=
  Nat.add_le_add_left (Nat.mul_le_mul h (Nat.add_le_add_left (Bytes.length_decimal_mono h) 1)) _

theorem Keys.nil : Keys [] := ⟨List.nodup_nil, List.forall_mem_nil _, List.forall_mem_nil _⟩

theorem Keys.cons {k : Bytes} {keys : List Bytes} (h : Keys keys) (hnew : k ∉ keys) (hname : IsName k)
    (hroom : k.length ≤ keyRoom keys.length) : Keys (k :: keys) where
  distinct := List.nodup_cons.mpr ⟨hnew, h.distinct⟩
  names := List.forall_mem_cons.mpr ⟨hname, h.names⟩
  lengths := by
    -- the earlier keys were told apart from fewer, so they are short enough all the more
    have hmore : keyRoom keys.length ≤ keyRoom (k :: keys).length := keyRoom_mono (Nat.le_succ _)
    exact List.forall_mem_cons.mpr
      ⟨Nat.le_trans hroom hmore, fun l hl => Nat.le_trans (h.lengths l hl) hmore⟩

theorem Keys.reverse {keys : List Bytes} (h : Keys keys) : Keys keys.reverse where
  distinct := List.nodup_reverse.mpr h.distinct
  names k hk := h.names k (List.mem_reverse.mp hk)
  lengths k hk := by
    rw [List.length_reverse]
    exact h.lengths k (List.mem_reverse.mp hk)

/-! ## Scalars -/

theorem text_always : text.Always fun octets =>
    octets.length ≤ greatestText ∧ ∀ b ∈ octets, 0x20 ≤ b.toNat ∧ b.toNat < 0x7F := by
  refine .bind (below_lt (by decide)) fun length hlength => ?_
  refine (octets_among (by decide) (by decide) length).mono fun octets hoctets => ⟨by omega, ?_⟩
  intro b hb
  have := hoctets.2 b hb
  rw [Among] at this
  omega

/-- A scalar is portable, whatever its kind. -/
theorem scalar_always : scalar.Always fun t => t.isContainer = false ∧ Portable t := by
  have huint : ∀ {n m : Nat}, n < m → m ≤ 0x8000000000000000 →
      PortableAt (.uint n.toUInt64) := by
    intro n m hn hm
    rw [PortableAt, show n.toUInt64.toNat = n % 2 ^ 64 from UInt64.toNat_ofNat']
    omega
  refine .bind .any fun choice _ => ?_
  split
  · exact .pure ⟨rfl, trivial⟩
  split
  · exact .bind .any fun b _ => .pure ⟨rfl, trivial⟩
  split
  · refine .bind .any fun small _ => ?_
    split
    · exact .bind .any fun n _ => .pure ⟨rfl, trivial⟩
    · exact .bind .any fun n _ => .pure ⟨rfl, trivial⟩
  split
  · refine .bind .any fun small _ => ?_
    split
    · exact .bind (below_lt (by decide)) fun n hn => .pure ⟨rfl, huint hn (by decide)⟩
    · exact .bind (below_lt (by decide)) fun n hn => .pure ⟨rfl, huint hn (by decide)⟩
  split
  · exact .bind (doubleWithin_finite (by decide)) fun bits hbits => .pure ⟨rfl, hbits⟩
  · exact .bind text_always fun octets hoctets => .pure ⟨rfl, hoctets⟩

/-! ## Containers -/

/-- With a budget, a step gives a result and leaves a budget that belong together. -/
def Growing.Always {α : Type} (step : Growing α) (budget : Nat) (p : α → Nat → Prop) : Prop :=
  Draw.Always (step budget) fun r => p r.1 r.2

namespace Growing.Always

variable {α β : Type} {step : Growing α} {next : α → Growing β} {p : α → Nat → Prop}
  {r : β → Nat → Prop} {a : α} {n : Nat}

theorem pure (h : p a n) : Always (pure a) n p := Draw.Always.pure h

theorem bind (h : Always step n p) (hnext : ∀ a m, p a m → Always (next a) m r) :
    Always (step >>= next) n r := Draw.Always.bind h fun b hb => hnext b.1 b.2 hb

theorem mono {q : α → Nat → Prop} (h : Always step n p) (hpq : ∀ a m, p a m → q a m) :
    Always step n q := Draw.Always.mono h fun b hb => hpq b.1 b.2 hb

/-- A draw spends nothing. -/
theorem draw {draw : Draw α} {q : α → Prop} (h : draw.Always q) (hnext : ∀ a, q a → Always (next a) n r) :
    Always (liftM draw >>= next) n r := by
  have hlift : Always (liftM draw) n fun a m => q a ∧ m = n := ⟨fun s => ⟨h.apply s, rfl⟩⟩
  exact hlift.bind fun a m ham => ham.2 ▸ hnext a ham.1

theorem get_bind {next : Nat → Growing β} (h : Always (next n) n r) : Always (get >>= next) n r := h

end Growing.Always

/-- A step for one child spends the nodes of a tree with a property. -/
def Grows (p : Tree → Prop) (child : Growing Tree) : Prop :=
  ∀ n, 0 < n → Growing.Always child n fun t left => p t ∧ t.nodes + left = n

variable {p : Tree → Prop} {child : Growing Tree}

theorem itemsOnto_always (h : Grows p child) (width n : Nat) {items : List Tree}
    (hitems : ∀ t ∈ items, p t) :
    Growing.Always (itemsOnto child items width) n fun all left =>
      (∀ t ∈ all, p t) ∧ (all.map Tree.nodes).sum + left = (items.map Tree.nodes).sum + n := by
  have hdone : ∀ {items : List Tree} {n : Nat}, (∀ t ∈ items, p t) →
      Growing.Always (return items.reverse) n fun all left =>
        (∀ t ∈ all, p t) ∧ (all.map Tree.nodes).sum + left = (items.map Tree.nodes).sum + n := by
    intro items n hitems
    refine .pure ⟨fun t ht => hitems t (List.mem_reverse.mp ht), ?_⟩
    rw [List.map_reverse, List.sum_reverse]
  induction width generalizing items n with
  | zero => exact hdone hitems
  | succ width ih =>
    refine .get_bind ?_
    split
    · exact hdone hitems
    · refine (h n (by omega)).bind fun t left ht => ?_
      refine (ih left (List.forall_mem_cons.mpr ⟨ht.1, hitems⟩)).mono fun all rest hall => ?_
      rw [List.map_cons, List.sum_cons] at hall
      exact ⟨hall.1, by omega⟩

/-- Keys that are told apart and values with a property. -/
structure Entries (p : Tree → Prop) (pairs : List (Bytes × Tree)) : Prop where
  keys : Keys (pairs.map Prod.fst)
  values : ∀ kv ∈ pairs, p kv.2

theorem Entries.reverse {pairs : List (Bytes × Tree)} (h : Entries p pairs) :
    Entries p pairs.reverse where
  keys := by rw [List.map_reverse]; exact h.keys.reverse
  values kv hkv := h.values kv (List.mem_reverse.mp hkv)

theorem entries_nil : Entries p [] := ⟨.nil, List.forall_mem_nil _⟩

theorem seen_empty (k : Bytes) : (∅ : Std.HashSet Bytes).contains k = true ↔
    k ∈ ([] : List (Bytes × Tree)).map Prod.fst := by
  rw [Std.HashSet.contains_empty, List.map_nil]
  simp

/-- Pairs spend the nodes of their values, and with enough width all that there is. -/
theorem pairsOnto_always (h : Grows p child) (width n : Nat) {seen : Std.HashSet Bytes}
    {pairs : List (Bytes × Tree)} (hseen : ∀ k, seen.contains k = true ↔ k ∈ pairs.map Prod.fst)
    (hpairs : Entries p pairs) :
    Growing.Always (pairsOnto child seen pairs.length pairs width) n fun all left =>
      Entries p all ∧ (n ≤ width → left = 0) ∧
        (all.map fun kv => kv.2.nodes).sum + left = (pairs.map fun kv => kv.2.nodes).sum + n := by
  have hdone : ∀ {pairs : List (Bytes × Tree)} {width n : Nat}, Entries p pairs →
      (n ≤ width → n = 0) → Growing.Always (return pairs.reverse) n fun all left =>
        Entries p all ∧ (n ≤ width → left = 0) ∧
          (all.map fun kv => kv.2.nodes).sum + left = (pairs.map fun kv => kv.2.nodes).sum + n := by
    intro pairs width n hpairs hn
    refine .pure ⟨hpairs.reverse, hn, ?_⟩
    rw [List.map_reverse, List.sum_reverse]
  induction width generalizing seen pairs n with
  | zero => exact hdone hpairs Nat.le_zero.mp
  | succ width ih =>
    refine .get_bind ?_
    split
    · rename_i hspent
      exact hdone hpairs fun _ => hspent
    · have hfresh := freshKey_always fun k => (hseen k).mp
      rw [List.length_map] at hfresh
      refine .draw hfresh fun k hk => (h n (by omega)).bind fun t left ht => ?_
      have hnew : k ∉ pairs.map Prod.fst := fun hmem => by
        rw [(hseen k).mpr hmem] at hk
        exact Bool.noConfusion hk.2.1
      have hseen' : ∀ l, (seen.insert k).contains l = true ↔ l ∈ (k :: pairs.map Prod.fst) := by
        intro l
        rw [Std.HashSet.contains_insert, Bool.or_eq_true, beq_iff_eq, hseen, List.mem_cons,
          eq_comm (a := l)]
      have hentries : Entries p ((k, t) :: pairs) :=
        ⟨hpairs.keys.cons hnew hk.1 (by rw [List.length_map]; exact hk.2.2),
          List.forall_mem_cons.mpr ⟨ht.1, hpairs.values⟩⟩
      refine (ih left hseen' hentries).mono fun all rest hall => ?_
      -- a value has a node, so one more pair and one less width keep the budget covered
      have hpos := t.nodes_pos
      rw [List.map_cons, List.sum_cons] at hall
      dsimp only at hall
      exact ⟨hall.1, fun hn => hall.2.1 (by omega), by omega⟩

/-- A node that turns out to be a scalar. -/
theorem scalar_grows (levels n : Nat) (hn : 0 < n) :
    Growing.Always (liftM scalar : Growing Tree) (n - 1) fun t left =>
      (Portable t ∧ t.depth ≤ levels) ∧ t.nodes + left = n := by
  refine ⟨fun s => ?_⟩
  obtain ⟨hscalar, hportable⟩ := scalar_always.apply s
  show (Portable (scalar s).1 ∧ (scalar s).1.depth ≤ levels) ∧ (scalar s).1.nodes + (n - 1) = n
  rw [Tree.depth_scalar hscalar, Tree.nodes_scalar hscalar]
  exact ⟨⟨hportable, Nat.zero_le _⟩, by omega⟩

theorem modify_bind {β : Type} {next : PUnit → Growing β} {r : β → Nat → Prop} {f : Nat → Nat} {n : Nat}
    (h : Growing.Always (next ()) (f n) r) : Growing.Always (modify f >>= next) n r := h

/-- **A node is portable, nests no deeper than it may and spends its nodes.** -/
theorem node_grows (levels : Nat) : Grows (fun t => Portable t ∧ t.depth ≤ levels) (node levels) := by
  induction levels with
  | zero => exact fun n hn => modify_bind (scalar_grows 0 n hn)
  | succ levels ih =>
    intro n hn
    refine modify_bind (.draw .any fun isContainer _ => ?_)
    split
    · refine .draw .any fun width _ => .draw .any fun isList _ => ?_
      split
      · refine (itemsOnto_always ih width (n - 1) (List.forall_mem_nil _)).bind fun items left h => .pure ?_
        have hspent := h.2
        rw [List.map_nil, List.sum_nil] at hspent
        dsimp only
        rw [portable_list, Tree.depth_list_le, Tree.nodes_list]
        exact ⟨⟨fun t ht => (h.1 t ht).1, fun t ht => (h.1 t ht).2⟩, by omega⟩
      · refine (pairsOnto_always ih width (n - 1) seen_empty entries_nil).bind fun pairs left h => .pure ?_
        have hspent := h.2.2
        rw [List.map_nil, List.sum_nil] at hspent
        dsimp only
        rw [portable_map, Tree.depth_map_le, Tree.nodes_map]
        exact ⟨⟨⟨h.1.keys, fun kv hkv => (h.1.values kv hkv).1⟩,
          fun kv hkv => (h.1.values kv hkv).2⟩, by omega⟩
    · exact scalar_grows (levels + 1) n hn

/-- **What is generated is a portable map with as many nodes as were asked for.** -/
theorem tree_always (size : Nat) : (tree size).Always fun t =>
    (∃ pairs, t = .map pairs) ∧ Portable t ∧ t.depth ≤ nesting + 1 ∧ t.nodes = max size 1 := by
  have hpairs := pairsOnto_always (node_grows nesting) (size - 1) (size - 1) seen_empty entries_nil
  refine Draw.Always.bind hpairs fun r h => .pure ⟨⟨r.1, rfl⟩, ?_⟩
  have hleft := h.2.1 (Nat.le_refl _)
  have hspent := h.2.2
  rw [List.map_nil, List.sum_nil] at hspent
  rw [portable_map, Tree.depth_map_le, Tree.nodes_map]
  exact ⟨⟨h.1.keys, fun kv hkv => (h.1.values kv hkv).1⟩,
    fun kv hkv => (h.1.values kv hkv).2, by omega⟩

/-- What a seed gives. -/
theorem generate_eq (size : Nat) (seed : UInt64) : ∃ pairs, generate size seed = .map pairs ∧
    Portable (.map pairs) ∧ (Tree.map pairs).depth ≤ nesting + 1 ∧
      (Tree.map pairs).nodes = max size 1 := by
  obtain ⟨⟨pairs, hpairs⟩, h⟩ := (tree_always size).apply (.ofSeed seed)
  rw [hpairs] at h
  exact ⟨pairs, hpairs, h⟩

/-! ## Lengths -/

/-- **No length in a portable tree is greater than its nodes make it.** -/
theorem Portable.lengthsBelow {t : Tree} (h : Portable t) {n : Nat} (hn : t.nodes ≤ n) :
    t.All (Tree.LengthsBelow (keyRoom n + greatestText)) := by
  have hroom : n + greatestKey ≤ keyRoom n := by
    rw [keyRoom, Nat.mul_add, Nat.mul_one]
    omega
  have hpositive : 0 < greatestKey ∧ 0 < greatestText := by decide
  induction t using Tree.induct with
  | scalar t ht =>
    cases t with
    | list items => exact Bool.noConfusion ht
    | map pairs => exact Bool.noConfusion ht
    | text octets =>
      show octets.length < keyRoom n + greatestText
      have := h.1
      omega
    | _ => trivial
  | list items ih =>
    rw [Tree.nodes_list] at hn
    -- there are no more items than nodes
    have hlength := List.length_le_sum_of_one_le (items.map Tree.nodes)
      (List.forall_mem_map.mpr fun t _ => t.nodes_pos)
    rw [List.length_map] at hlength
    refine Tree.all_list.mpr ⟨?_, fun t ht => ih t ht (portable_list.mp h t ht) ?_⟩
    · show items.length < keyRoom n + greatestText
      omega
    · have := List.le_sum_of_mem (List.mem_map_of_mem (f := Tree.nodes) ht)
      omega
  | map pairs ih =>
    rw [Tree.nodes_map] at hn
    have hlength := List.length_le_sum_of_one_le (pairs.map fun kv => kv.2.nodes)
      (List.forall_mem_map.mpr fun kv _ => kv.2.nodes_pos)
    rw [List.length_map] at hlength
    refine Tree.all_map.mpr ⟨⟨by omega, fun kv hkv => ?_⟩, fun kv hkv =>
      ih kv hkv ((portable_map.mp h).2 kv hkv) ?_⟩
    · have hkey := (portable_map.mp h).1.lengths kv.1 (List.mem_map_of_mem hkv)
      have hmono : keyRoom (pairs.map Prod.fst).length ≤ keyRoom n :=
        keyRoom_mono (by rw [List.length_map]; omega)
      omega
    · have := List.le_sum_of_mem (List.mem_map_of_mem (f := fun kv : Bytes × Tree => kv.2.nodes) hkv)
      omega

end TreeDigest.Generator
