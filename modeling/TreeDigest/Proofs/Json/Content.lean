import TreeDigest.Json.Codec
import TreeDigest.Proofs.Json.Advance
import TreeDigest.Proofs.Json.Collapse

/-!
# What a text says

A text says a tree with all pairs of its objects, in the order in which they stand and
however often a key occurs. `content` is that tree, or the fault for which the text is
not accepted.

The reader that builds a tree takes it in the same places and with the same faults,
and what it builds is the content with each key kept once and its integers signed if
they can be.
-/

namespace TreeDigest

/-! ## Results of steps, turned into others -/

namespace Steps

variable {ε σ α β ρ : Type}

theorem gatherOnto_map {step : Nat → EStateM ε σ (Option α)} (g : α → β) {room : List ρ}
    (round : Nat) (done : List α) :
    Loop.gatherOnto (fun round => do return (← step round).map g) round (done.map g) room =
      do return (← Loop.gatherOnto step round done room).map g := by
  induction room generalizing round done with
  | nil =>
    rw [Loop.gatherOnto, Loop.gatherOnto, bind_assoc, bind_assoc]
    refine bind_congr fun x? => ?_
    cases x? <;> rfl
  | cons _ room ih =>
    rw [Loop.gatherOnto, Loop.gatherOnto, bind_assoc, bind_assoc]
    refine bind_congr fun x? => ?_
    cases x? with
    | none => rfl
    | some x => exact ih (round + 1) (x :: done)

/-- A loop whose results are each turned into another. -/
theorem gather_map {step : Nat → EStateM ε σ (Option α)} (g : α → β) {room : List ρ} :
    Loop.gather (fun round => do return (← step round).map g) room =
      do return (← Loop.gather step room).map g := by
  have honto : Loop.gatherOnto (fun round => do return (← step round).map g) 0 [] room =
      do return (← Loop.gatherOnto step 0 [] room).map g := gatherOnto_map g 0 []
  rw [Loop.gather, Loop.gather, honto, bind_assoc, bind_assoc]
  refine bind_congr fun xs => ?_
  simp only [pure_bind, List.map_reverse]

end Steps

namespace Json

variable {levels : Nat}

/-! ## Content -/

/-- A number as a tree, of the kind of which it is. -/
def Number.content : Number → Tree
  | .unsigned u => .uint u
  | .negative i => .int i
  | .double bits => .double bits

/-- The content of one value, by steps for what comes after the opening of a container. -/
def readValue (list object : Parser Tree) : Parser Tree := do
  match ← token with
  | .null => return .null
  | .bool b => return .bool b
  | .number n => return n.content
  | .text octets => return .text octets
  | .listStart => list
  | .objectStart => object

/-- The items of a list, after its opening. -/
def readList (value : Parser Tree) : Parser Tree := do
  let items ← Loop.gather (readItem value) (← get).rest
  listEnd
  return .list items

/-- The pairs of an object, after its opening. -/
def readObject (value : Parser Tree) : Parser Tree := do
  let pairs ← Loop.gather (readMember value) (← get).rest
  objectEnd
  return .map pairs

/-- The content of one value. The argument is how many more containers may open. -/
def readContent : Nat → Parser Tree
  | 0 => readValue (Parser.fail .tooDeep) (Parser.fail .tooDeep)
  | levels + 1 => readValue (readList (readContent levels)) (readObject (readContent levels))

/-- The content of a whole text, if it is accepted. -/
def content (input : Bytes) : Except Fault Tree :=
  let step : Parser Tree := do
    let t ← readContent nestingCeiling
    Parser.finished
    return t
  match step (Cursor.start input) with
  | .ok t _ => .ok t
  | .error fault _ => .error fault

/-! ## Moving on -/

section Moving

variable {value list object : Parser Tree}

theorem readItem_advances (h : Advances value) (round : Nat) : Advances (readItem value round) :=
  .bind (.nextItem _) fun _ => by
    split
    · exact .bind h fun _ => .pure _
    · exact .pure _

theorem readMember_advances (h : Advances value) (round : Nat) : Advances (readMember value round) :=
  .bind (.nextKey _) fun _ => by
    split
    · exact .bind .key fun _ => .bind .colon fun _ => .bind h fun _ => .pure _
    · exact .pure _

theorem readItem_spends (h : Spends value) {round : Nat} {c c' : Cursor} {t : Tree}
    (hok : readItem value round c = .ok (some t) c') : c'.rest.length < c.rest.length := by
  obtain ⟨more, c₁, hmore, hok⟩ := Steps.bind_eq_ok_iff.mp hok
  cases more with
  | false => cases hok
  | true =>
    obtain ⟨t, c₂, hvalue, hok⟩ := Steps.bind_eq_ok_iff.mp hok
    cases hok
    exact Nat.lt_of_lt_of_le (h.lt hvalue) ((Advances.nextItem _).suffix hmore).length_le

theorem readMember_spends (h : Spends value) {round : Nat} {c c' : Cursor} {kv : Bytes × Tree}
    (hok : readMember value round c = .ok (some kv) c') : c'.rest.length < c.rest.length := by
  obtain ⟨more, c₁, hmore, hok⟩ := Steps.bind_eq_ok_iff.mp hok
  cases more with
  | false => cases hok
  | true =>
    obtain ⟨k, c₂, hkey, hok⟩ := Steps.bind_eq_ok_iff.mp hok
    obtain ⟨_, c₃, hcolon, hok⟩ := Steps.bind_eq_ok_iff.mp hok
    obtain ⟨t, c₄, hvalue, hok⟩ := Steps.bind_eq_ok_iff.mp hok
    cases hok
    have h₁ := ((Advances.nextKey _).suffix hmore).length_le
    have h₂ := (Advances.key.suffix hkey).length_le
    have h₃ := (Advances.colon.suffix hcolon).length_le
    have h₄ := h.lt hvalue
    omega

theorem readValue_advances (hlist : Advances list) (hobject : Advances object) :
    Advances (readValue list object) :=
  .bind .token fun next => by
    cases next with
    | listStart => exact hlist
    | objectStart => exact hobject
    | _ => exact .pure _

/-- A value is a token at least. -/
theorem readValue_spends (hlist : Advances list) (hobject : Advances object) :
    Spends (readValue list object) where
  lt h := by
    obtain ⟨next, c₁, htoken, h⟩ := Steps.bind_eq_ok_iff.mp h
    refine Nat.lt_of_le_of_lt ((?_ : Advances _).suffix h).length_le (token_spends.lt htoken)
    cases next with
    | listStart => exact hlist
    | objectStart => exact hobject
    | _ => exact .pure _

theorem readContent_moves (levels : Nat) :
    Advances (readContent levels) ∧ Spends (readContent levels) := by
  induction levels with
  | zero => exact ⟨readValue_advances (.fail _) (.fail _), readValue_spends (.fail _) (.fail _)⟩
  | succ levels ih =>
    obtain ⟨hadvances, hspends⟩ := ih
    have hlist : Advances (readList (readContent levels)) :=
      .gather_rest (readItem_advances hadvances) (readItem_spends hspends) fun _ =>
        .bind .listEnd fun _ => .pure _
    have hobject : Advances (readObject (readContent levels)) :=
      .gather_rest (readMember_advances hadvances) (readMember_spends hspends) fun _ =>
        .bind .objectEnd fun _ => .pure _
    exact ⟨readValue_advances hlist hobject, readValue_spends hlist hobject⟩

theorem readContent_advances (levels : Nat) : Advances (readContent levels) :=
  (readContent_moves levels).1

theorem readContent_spends (levels : Nat) : Spends (readContent levels) := (readContent_moves levels).2

end Moving

/-! ## Building -/

/-- A tree as it is built. -/
def built (t : Tree) : Tree := collapse (t.mapIntegers .toSigned)

theorem built_scalar {t : Tree} (h : t.isContainer = false) : built t = t.mapIntegers .toSigned :=
  collapse_scalar ((Tree.isContainer_mapIntegers t).trans h)

theorem built_list (items : List Tree) : built (.list items) = .list (items.map built) := by
  rw [built, Tree.mapIntegers_list, collapse_list, List.map_map]
  rfl

theorem built_map (pairs : List (Bytes × Tree)) :
    built (.map pairs) = .map (distinct (pairs.map fun kv => (kv.1, built kv.2))) := by
  rw [built, Tree.mapIntegers_map, collapse_map, List.map_map, distinct_eq]
  rfl

theorem built_eq (t : Tree) : built t = (collapse t).mapIntegers .toSigned :=
  collapse_mapIntegers .toSigned t

/-- What is built does not depend on which kind the integers are of that keep their values. -/
theorem built_mapIntegers {g : Integer → Integer} (hg : ∀ n, (g n).value = n.value) (t : Tree) :
    built (t.mapIntegers g) = built t := by
  rw [built, Tree.mapIntegers_comp, built]
  exact congrArg (fun g => collapse (t.mapIntegers g)) (funext fun n => Integer.toSigned_inj (hg n))

theorem built_content (n : Number) : built n.content = n.toTree := by
  cases n with
  | unsigned u =>
    rw [Number.content, built_scalar rfl, Number.toTree, Tree.mapIntegers, Integer.toSigned]
    split <;> rfl
  | negative i => rfl
  | double bits => rfl

theorem readItem_map {value : Parser Tree} (g : Tree → Tree) :
    readItem (do return g (← value) : Parser Tree) = fun round => do return (← readItem value round).map g := by
  funext round
  rw [readItem, readItem]
  simp only [bind_assoc, pure_bind]
  refine bind_congr fun more => ?_
  cases more with
  | false => rfl
  | true =>
    rw [if_pos rfl, if_pos rfl]
    simp only [bind_assoc, pure_bind, Option.map_some]

theorem readMember_map {value : Parser Tree} (g : Tree → Tree) :
    readMember (do return g (← value) : Parser Tree) =
      fun round => do return (← readMember value round).map fun kv => (kv.1, g kv.2) := by
  funext round
  rw [readMember, readMember, bind_assoc]
  refine bind_congr fun more => ?_
  cases more with
  | false => rfl
  | true =>
    rw [if_pos rfl, if_pos rfl]
    simp only [bind_assoc, pure_bind, Option.map_some]

/-- **What is built of a value is built of its content.** -/
theorem read_eq (levels : Nat) : read levels = do return built (← readContent levels) := by
  induction levels with
  | zero =>
    rw [read, readContent, readValue, bind_assoc]
    refine bind_congr fun next => ?_
    cases next with
    | number n => exact congrArg pure (built_content n).symm
    | _ => rfl
  | succ levels ih =>
    rw [read, readContent, readValue, bind_assoc]
    refine bind_congr fun next => ?_
    cases next with
    | number n => exact congrArg pure (built_content n).symm
    | listStart =>
      dsimp only
      rw [ih, readItem_map]
      simp only [readList, Steps.gather_map, bind_assoc, pure_bind, built_list]
    | objectStart =>
      dsimp only
      rw [ih, readMember_map]
      simp only [readObject, Steps.gather_map, bind_assoc, pure_bind, built_map]
    | _ => rfl

/-- **A whole text is built from its content, or refused for its fault.** -/
theorem readTree_eq (codec : String) (input : Bytes) :
    readTree codec input = match content input with
      | .ok t => .ok (built t)
      | .error fault => .error (.decode (.parser codec fault)) := by
  have hstep : (do let t ← read nestingCeiling; Parser.finished; return t : Parser Tree) =
      do return built (← (do let t ← readContent nestingCeiling; Parser.finished; return t)) := by
    rw [read_eq]
    simp only [bind_assoc, pure_bind]
  unfold readTree content
  simp only [hstep]
  rw [Steps.bind_apply]
  cases (do let t ← readContent nestingCeiling; Parser.finished; return t : Parser Tree)
    (Cursor.start input) <;> rfl

variable {input : Bytes} {t : Tree} {o : FoldOptions}

theorem decodeTree_accepted {codec : String} (h : content input = .ok t) :
    decodeTree codec input o = foldTreeOn .decode (built t) o := by
  rw [decodeTree, readTree_eq, h]
  rfl

theorem decodeTree_refused {codec : String} {fault : Fault} (h : content input = .error fault) :
    decodeTree codec input o = .error (.decode (.parser codec fault)) := by
  rw [decodeTree, readTree_eq, h]
  rfl

end Json

end TreeDigest
