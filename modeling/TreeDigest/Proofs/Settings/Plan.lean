import TreeDigest.Check.Plan
import TreeDigest.Proofs.Settings.Record

/-!
# Plans are what a text means

The parameters of a fold and plans are records. What a tree means as one of them is said part
by part: what the tree gives for it, by its place or by its name, or else the default.
-/

namespace TreeDigest

open Settings

/-! ## Parameters of a fold -/

namespace FoldOptions

variable {t : Tree} {o : FoldOptions}

/-- What a tree means as parameters of a fold; those that it does not give are the default ones. -/
structure Means (t : Tree) (o : FoldOptions) : Prop where
  seed : IsPart (partOf 0 "seed" t) (fun t seed => IsNatural UInt32.size t seed.toNat)
    ({} : FoldOptions).seed o.seed
  keyOrder : IsPart (partOf 1 "key_order" t) (IsChoice keyOrders)
    ({} : FoldOptions).keyOrder o.keyOrder
  maxDepth : IsPart (partOf 2 "max_depth" t) (IsNatural UInt64.size)
    ({} : FoldOptions).maxDepth o.maxDepth

theorem natural_reads_one (bound : Nat) (type : String) :
    Reads 1 (IsNatural bound) (natural bound type) :=
  (natural_reads bound type).mono (Nat.zero_le 1)

theorem fields_read : ∀ field ∈ fields, field.IsRead 1 := by
  simp only [fields, List.forall_mem_cons]
  exact ⟨.of (natural_reads_one _ _), .of (choice_reads _), .of (natural_reads_one _ _), nofun⟩

theorem fields_distinct : (fields.map fun field => Utf8.ofText field.name).Nodup := by decide

theorem means_of_record (h : IsRecord 1 fields {} t o) : Means t o where
  seed := by
    have hfields : IsRecord 1 ([] ++ _ :: [_, _]) {} t o := h
    refine hfields.part FoldOptions.seed _ _ (fun htakes => ?_) ?_ fields_distinct
    · obtain ⟨n, hn, rfl⟩ := Field.takes_of (natural_reads_one _ _) htakes
      have hback : n.toUInt32.toNat = n := UInt32.toNat_ofNat_of_lt' hn.2
      exact hback.symm ▸ hn
    · simp [Field.Keeps.of]
  keyOrder := by
    have hfields : IsRecord 1 ([_] ++ _ :: [_]) {} t o := h
    refine hfields.part FoldOptions.keyOrder _ _ (fun htakes => ?_) ?_ fields_distinct
    · obtain ⟨keyOrder, hmeans, rfl⟩ := Field.takes_of (choice_reads _) htakes
      exact hmeans
    · simp [Field.Keeps.of]
  maxDepth := by
    have hfields : IsRecord 1 ([_, _] ++ _ :: []) {} t o := h
    refine hfields.part FoldOptions.maxDepth _ _ (fun htakes => ?_) ?_ fields_distinct
    · obtain ⟨maxDepth, hmeans, rfl⟩ := Field.takes_of (natural_reads_one _ _) htakes
      exact hmeans
    · simp [Field.Keeps.of]

/-- **Parameters of a fold are read as what the text means.** -/
theorem setting_reads : Reads 2 Means setting where
  advances := (record_reads fields_read).advances
  value hok := by
    obtain ⟨t, ht, hrecord⟩ := (record_reads fields_read).value hok
    exact ⟨t, ht, means_of_record hrecord⟩

theorem setting_closes (path : Path) : Json.Closes (setting path) := record_closes fields_read path

end FoldOptions

/-! ## Plans -/

namespace Plan

variable {t : Tree} {plan : Plan}

/-- A tree is the name of a codec, or of none. -/
def IsName (t : Tree) (name : String) : Prop :=
  ∃ octets, IsText t octets ∧ name = Utf8.toText octets

/-- What a tree means as a plan; those parts that it does not give are the default ones. -/
structure Means (t : Tree) (plan : Plan) : Prop where
  sizes : IsPart (partOf 0 "sizes" t) (IsList (IsNatural UInt64.size)) ({} : Plan).sizes plan.sizes
  seed : IsPart (partOf 1 "seed" t) (fun t seed => IsNatural UInt64.size t seed.toNat)
    ({} : Plan).seed plan.seed
  codecs : IsPart (partOf 2 "codecs" t) (IsList IsName) ({} : Plan).codecs plan.codecs
  fold : IsPart (partOf 3 "fold" t) FoldOptions.Means ({} : Plan).fold plan.fold

theorem sizes_read (type : String) :
    Reads 2 (IsList (IsNatural UInt64.size)) (list (natural UInt64.size type)) :=
  (list_reads (natural_reads _ _)).mono (Nat.le_succ 1)

theorem codecs_read : Reads 2 (IsList IsText) (list text) :=
  (list_reads text_reads).mono (Nat.le_succ 1)

theorem seed_reads (type : String) : Reads 2 (IsNatural UInt64.size) (natural UInt64.size type) :=
  (natural_reads _ _).mono (Nat.zero_le 2)

theorem fields_read : ∀ field ∈ fields, field.IsRead 2 := by
  simp only [fields, List.forall_mem_cons]
  exact ⟨.of (sizes_read _), .of (seed_reads _), .of codecs_read, .of FoldOptions.setting_reads,
    nofun⟩

theorem fields_distinct : (fields.map fun field => Utf8.ofText field.name).Nodup := by decide

theorem means_of_record (h : IsRecord 2 fields {} t plan) : Means t plan where
  sizes := by
    have hfields : IsRecord 2 ([] ++ _ :: [_, _, _]) {} t plan := h
    refine hfields.part Plan.sizes _ _ (fun htakes => ?_) ?_ fields_distinct
    · obtain ⟨sizes, hmeans, rfl⟩ := Field.takes_of (sizes_read _) htakes
      exact hmeans
    · simp [Field.Keeps.of]
  seed := by
    have hfields : IsRecord 2 ([_] ++ _ :: [_, _]) {} t plan := h
    refine hfields.part Plan.seed _ _ (fun htakes => ?_) ?_ fields_distinct
    · obtain ⟨n, hn, rfl⟩ := Field.takes_of (seed_reads _) htakes
      have hback : n.toUInt64.toNat = n := UInt64.toNat_ofNat_of_lt' hn.2
      exact hback.symm ▸ hn
    · simp [Field.Keeps.of]
  codecs := by
    have hfields : IsRecord 2 ([_, _] ++ _ :: [_]) {} t plan := h
    refine hfields.part Plan.codecs _ _ (fun htakes => ?_) ?_ fields_distinct
    · obtain ⟨names, ⟨items, rfl, hitems⟩, rfl⟩ := Field.takes_of codecs_read htakes
      refine ⟨items, rfl, List.forall₂_map_right_iff.mpr ?_⟩
      exact hitems.imp fun _ octets htext => ⟨octets, htext, rfl⟩
    · simp [Field.Keeps.of]
  fold := by
    have hfields : IsRecord 2 ([_, _, _] ++ _ :: []) {} t plan := h
    refine hfields.part Plan.fold _ _ (fun htakes => ?_) ?_ fields_distinct
    · obtain ⟨fold, hmeans, rfl⟩ := Field.takes_of FoldOptions.setting_reads htakes
      exact hmeans
    · simp [Field.Keeps.of]

/-- **A plan is read as what the text means.** -/
theorem setting_reads : Reads 3 Means setting where
  advances := (record_reads fields_read).advances
  value hok := by
    obtain ⟨t, ht, hrecord⟩ := (record_reads fields_read).value hok
    exact ⟨t, ht, means_of_record hrecord⟩

theorem setting_closes (path : Path) : Json.Closes (setting path) := record_closes fields_read path

end Plan

end TreeDigest
