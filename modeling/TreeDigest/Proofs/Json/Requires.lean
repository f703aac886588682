import TreeDigest.Proofs.Json.Form
import TreeDigest.Proofs.Output.Requires

/-!
# What the JSON writers require

A document that was written is expressible, since both writers refuse what is not
before they fold it. The one that checks first has told the keys of each map apart
besides. Both have folded the whole tree.
-/

namespace TreeDigest.Json

variable {codec : String} {t : Tree} {k : Bytes}

/-! ## Refusals that did not apply -/

theorem require_ok {σ : Type} {refusal : Except Error Unit} {s s' : σ}
    (h : require refusal s = .ok () s') : refusal = .ok () ∧ s = s' := by
  cases refusal with
  | ok _ => cases h; exact ⟨rfl, rfl⟩
  | error e => cases h

theorem isValid_of_requireText {octets : Bytes} (h : requireText codec octets = .ok ()) :
    Utf8.isValid octets = true := by
  unfold requireText at h
  cases hfault : Utf8.fault? octets with
  | none => exact Option.isNone_iff_eq_none.mpr hfault
  | some fault => rw [hfault] at h; cases h

theorem isFinite_of_requireFinite {bits : UInt64} (h : requireFinite codec bits = .ok ()) :
    Binary.double.isFinite bits.toNat = true := by
  unfold requireFinite at h
  split at h
  · assumption
  · cases h

/-! ## Writing and folding in one pass -/

theorem keeps_require {refusal : Except Error Unit} :
    Encoder.Keeps (require refusal) (refusal = .ok ()) := by
  intro s s' hok
  obtain ⟨hrefusal, rfl⟩ := require_ok hok
  exact ⟨hrefusal, rfl⟩

theorem writeKey_ok {isFirst : Bool} {s s' : Encoding} (h : writeKey codec isFirst k s = .ok () s') :
    Utf8.isValid k = true ∧ Folding.event (.key k) s.folder = .ok () s'.folder := by
  obtain ⟨_, s₁, hrequire, h⟩ := Steps.bind_eq_ok_iff.mp h
  obtain ⟨_, s₂, hfold, hput⟩ := Steps.bind_eq_ok_iff.mp h
  obtain ⟨htext, hkept⟩ := require_ok hrequire
  obtain ⟨f, hf, rfl⟩ := Encoder.fold_eq_ok_iff.mp hfold
  rw [(Encoder.Keeps.put hput).2, hkept]
  exact ⟨isValid_of_requireText htext, hf⟩

/-- **A tree that is written is expressible.** -/
theorem write_requires (t : Tree) : Requires (Direct.write codec t) t (Expressible t) := by
  induction t using Tree.induct with
  | scalar t hscalar =>
    cases t with
    | list items => exact Bool.noConfusion hscalar
    | map pairs => exact Bool.noConfusion hscalar
    | double bits =>
      have hfold : Requires (do Encoder.fold (.double bits); Encoder.put (doubleForm bits))
          (.double bits) True := .scalar rfl Encoder.Keeps.put
      exact (hfold.after keeps_require).mono fun h => isFinite_of_requireFinite h.1
    | text octets =>
      have hfold : Requires (do Encoder.fold (.text octets); Encoder.put (textForm octets))
          (.text octets) True := .scalar rfl Encoder.Keeps.put
      exact (hfold.after keeps_require).mono fun h => isValid_of_requireText h.1
    | null => exact .scalar rfl fun hok => (Encoder.Keeps.put hok).imp_left fun _ => trivial
    | bool b => exact .scalar rfl fun hok => (Encoder.Keeps.put hok).imp_left fun _ => trivial
    | int i => exact .scalar rfl fun hok => (Encoder.Keeps.put hok).imp_left fun _ => trivial
    | uint u => exact .scalar rfl fun hok => (Encoder.Keeps.put hok).imp_left fun _ => trivial
  | list items ih =>
    refine .list fun {count s s'} hok => ?_
    obtain ⟨_, s₁, hopen, hok⟩ := Steps.bind_eq_ok_iff.mp hok
    obtain ⟨_, s₂, hitems, hok⟩ := Steps.bind_eq_ok_iff.mp hok
    obtain ⟨_, s₃, hend, hclose⟩ := Steps.bind_eq_ok_iff.mp hok
    obtain ⟨hall, htrees⟩ := Requires.items (fun i => Direct.writeItems codec (i == 0))
      (fun i item => do Encoder.put (separator (i == 0)); Direct.write codec item) Expressible
      (fun _ => rfl) (fun i item items => by rw [Direct.writeItems, bind_assoc]; rfl)
      (fun i t ht => ((ih t ht).after Encoder.Keeps.put).mono And.right) 0 hitems
    obtain ⟨f, hf, rfl⟩ := Encoder.fold_eq_ok_iff.mp hend
    rw [(Encoder.Keeps.put hopen).2] at htrees
    rw [(Encoder.Keeps.put hclose).2]
    exact ⟨expressible_list.mpr hall, _, htrees, hf⟩
  | map pairs ih =>
    refine .map fun {count s s'} hok => ?_
    obtain ⟨_, s₁, hopen, hok⟩ := Steps.bind_eq_ok_iff.mp hok
    obtain ⟨_, s₂, hpairs, hok⟩ := Steps.bind_eq_ok_iff.mp hok
    obtain ⟨_, s₃, hend, hclose⟩ := Steps.bind_eq_ok_iff.mp hok
    obtain ⟨hall, hmembers⟩ := Requires.pairs (fun i => Direct.writePairs codec (i == 0))
      (fun i => writeKey codec (i == 0)) (fun _ => Direct.write codec) (fun k => Utf8.isValid k = true)
      (fun _ => Expressible) (fun _ => rfl) (fun _ _ _ _ => writePairs_cons) writeKey_ok ih 0 hpairs
    obtain ⟨f, hf, rfl⟩ := Encoder.fold_eq_ok_iff.mp hend
    rw [(Encoder.Keeps.put hopen).2] at hmembers
    rw [(Encoder.Keeps.put hclose).2]
    refine ⟨expressible_map.mpr ⟨fun kv hkv => (hall kv hkv).1, fun kv hkv => (hall kv hkv).2⟩, _,
      hmembers, hf⟩

/-! ## Folding before writing -/

/-- What passes the check is expressible, has its keys told apart, and was folded. -/
def Checked (codec : String) (t : Tree) : Prop :=
  ∀ {f f' : Folder}, check codec t f = .ok () f' →
    Expressible t ∧ Distinct t ∧ Folding.tree t f = .ok () f'

theorem checkItems_requires {items : List Tree} {f f' : Folder} (h : ∀ t ∈ items, Checked codec t)
    (hok : checkItems codec items f = .ok () f') :
    (∀ t ∈ items, Expressible t ∧ Distinct t) ∧ Folding.trees items f = .ok () f' := by
  induction items generalizing f with
  | nil =>
    cases hok
    exact ⟨fun _ ht => (nomatch ht), rfl⟩
  | cons item items ih =>
    rw [List.forall_mem_cons] at h
    obtain ⟨_, f₁, hitem, hitems⟩ := Steps.bind_eq_ok_iff.mp hok
    obtain ⟨hexpressible, hdistinct, htree⟩ := h.1 hitem
    obtain ⟨hall, htrees⟩ := ih h.2 hitems
    refine ⟨List.forall_mem_cons.mpr ⟨⟨hexpressible, hdistinct⟩, hall⟩, ?_⟩
    rw [Folding.trees, Steps.bind_ok htree, htrees]

/-- Pairs that pass have keys that are told apart from those seen before and from each other. -/
theorem checkPairs_requires {pairs : List (Bytes × Tree)} {seen : Std.HashSet Bytes} {f f' : Folder}
    (h : ∀ kv ∈ pairs, Checked codec kv.2) (hok : checkPairs codec seen pairs f = .ok () f') :
    (∀ kv ∈ pairs, Utf8.isValid kv.1 = true ∧ Expressible kv.2 ∧ Distinct kv.2 ∧
      seen.contains kv.1 = false) ∧ (pairs.map Prod.fst).Nodup ∧
      Folding.members pairs f = .ok () f' := by
  induction pairs generalizing seen f with
  | nil =>
    cases hok
    exact ⟨fun _ hkv => (nomatch hkv), List.nodup_nil, rfl⟩
  | cons pair pairs ih =>
    obtain ⟨k, value⟩ := pair
    rw [List.forall_mem_cons] at h
    obtain ⟨_, f₁, hrequire, hok⟩ := Steps.bind_eq_ok_iff.mp hok
    obtain ⟨_, f₂, hkey, hok⟩ := Steps.bind_eq_ok_iff.mp hok
    obtain ⟨_, f₃, hvalue, hok⟩ := Steps.bind_eq_ok_iff.mp hok
    obtain ⟨htext, hkept⟩ := require_ok hrequire
    obtain ⟨hexpressible, hdistinct, htree⟩ := h.1 hvalue
    cases hseen : seen.contains k with
    | true => rw [hseen] at hok; cases hok
    | false =>
      rw [hseen, if_neg Bool.false_ne_true] at hok
      obtain ⟨hall, hnodup, hmembers⟩ := ih h.2 hok
      -- the keys that are left are told apart from this one because it was added to those seen
      have hother : ∀ kv ∈ pairs, k ≠ kv.1 ∧ seen.contains kv.1 = false := by
        intro kv hkv
        have hcontains := (hall kv hkv).2.2.2
        rw [Std.HashSet.contains_insert, Bool.or_eq_false_iff] at hcontains
        exact ⟨ne_of_beq_false hcontains.1, hcontains.2⟩
      refine ⟨List.forall_mem_cons.mpr ⟨⟨isValid_of_requireText htext, hexpressible, hdistinct, hseen⟩,
        fun kv hkv => ?_⟩, List.nodup_cons.mpr ⟨fun hmem => ?_, hnodup⟩, ?_⟩
      · obtain ⟨hvalid, hexpressible, hdistinct, -⟩ := hall kv hkv
        exact ⟨hvalid, hexpressible, hdistinct, (hother kv hkv).2⟩
      · obtain ⟨kv, hkv, heq⟩ := List.mem_map.mp hmem
        exact (hother kv hkv).1 heq.symm
      · rw [hkept, Folding.members, Steps.bind_ok hkey, Steps.bind_ok htree, hmembers]

/-- **A tree that passes the check is expressible, with its keys told apart.** -/
theorem check_requires (t : Tree) : Checked codec t := by
  induction t using Tree.induct with
  | scalar t hscalar =>
    intro f f' hok
    cases t with
    | list items => exact Bool.noConfusion hscalar
    | map pairs => exact Bool.noConfusion hscalar
    | double bits =>
      obtain ⟨_, f₁, hrequire, hfold⟩ := Steps.bind_eq_ok_iff.mp hok
      obtain ⟨hfinite, rfl⟩ := require_ok hrequire
      exact ⟨isFinite_of_requireFinite hfinite, trivial, hfold⟩
    | text octets =>
      obtain ⟨_, f₁, hrequire, hfold⟩ := Steps.bind_eq_ok_iff.mp hok
      obtain ⟨htext, rfl⟩ := require_ok hrequire
      exact ⟨isValid_of_requireText htext, trivial, hfold⟩
    | _ => exact ⟨trivial, trivial, hok⟩
  | list items ih =>
    intro f f' hok
    obtain ⟨count, f₁, hcount, hok⟩ := Steps.bind_eq_ok_iff.mp hok
    obtain ⟨_, f₂, hbegin, hok⟩ := Steps.bind_eq_ok_iff.mp hok
    obtain ⟨_, f₃, hitems, hend⟩ := Steps.bind_eq_ok_iff.mp hok
    obtain ⟨hlen, rfl, rfl⟩ := Folding.count_eq_ok_iff.mp hcount
    obtain ⟨hall, htrees⟩ := checkItems_requires ih hitems
    exact ⟨expressible_list.mpr fun t ht => (hall t ht).1, distinct_list.mpr fun t ht => (hall t ht).2,
      Requires.tree_list hlen hbegin htrees hend⟩
  | map pairs ih =>
    intro f f' hok
    obtain ⟨count, f₁, hcount, hok⟩ := Steps.bind_eq_ok_iff.mp hok
    obtain ⟨_, f₂, hbegin, hok⟩ := Steps.bind_eq_ok_iff.mp hok
    obtain ⟨_, f₃, hpairs, hend⟩ := Steps.bind_eq_ok_iff.mp hok
    obtain ⟨hlen, rfl, rfl⟩ := Folding.count_eq_ok_iff.mp hcount
    obtain ⟨hall, hnodup, hmembers⟩ := checkPairs_requires ih hpairs
    exact ⟨expressible_map.mpr ⟨fun kv hkv => (hall kv hkv).1, fun kv hkv => (hall kv hkv).2.1⟩,
      distinct_map.mpr ⟨hnodup, fun kv hkv => (hall kv hkv).2.2.1⟩,
      Requires.tree_map hlen hbegin hmembers hend⟩

end TreeDigest.Json
