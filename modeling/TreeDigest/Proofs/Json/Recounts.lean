import TreeDigest.Proofs.Fold.Arrival
import TreeDigest.Proofs.Input.Recounts
import TreeDigest.Proofs.Json.Content

/-!
# Folding any text

Whatever the octets are, the reader that folds goes over them as a reader of the content
would. If there is a content, its events have been handed over, and if there is a fault,
a beginning of the events of some tree. The trees have no more entries anywhere than the
text has octets, so nothing but their depth can be the reason for refusing them.
-/

namespace TreeDigest.Json

open TreeDigest.Decoder (Recounts)

variable {codec : String} {levels n : Nat}

/-! ## Recounting -/

/-- The events told of a tree by a text: nothing is counted, and each number is of its kind. -/
def told (t : Tree) : List Event := t.arrival id false

/-- No container of a tree has more than a number of entries. -/
def EntriesUpTo (n : Nat) (t : Tree) : Prop := t.All fun s => s.entries ≤ n

theorem entriesUpTo_scalar {t : Tree} (h : t.isContainer = false) : EntriesUpTo n t := by
  cases t with
  | list items => exact Bool.noConfusion h
  | map pairs => exact Bool.noConfusion h
  | _ => exact Nat.zero_le n

/-- A fault as an error of a codec. -/
abbrev wrapped (codec : String) (fault : Fault) : Error := .decode (.parser codec fault)

/-- A step that folds one value recounts one that reads it, where few octets are left. -/
def Recounted (codec : String) (n : Nat) (step : Decoder Cursor Unit) (reader : Parser Tree) : Prop :=
  ∀ c : Cursor, c.rest.length ≤ n →
    Recounts (wrapped codec) step reader c (fun _ => ()) told (EntriesUpTo n)

/-- All octets that are left, in both. -/
theorem rest_bind {α β : Type} {wrap : Fault → Error} {next : Bytes → Decoder Cursor β}
    {more : Cursor → Parser α} {c : Cursor} {answer : α → β} {events : α → List Event} {p : α → Prop}
    (h : Recounts wrap (next c.rest) (more c) c answer events p) :
    Recounts wrap (Direct.rest >>= next) (get >>= more) c answer events p :=
  ⟨h.ok, h.error⟩

theorem foldItem_recounts {value : Decoder Cursor Unit} {reader : Parser Tree}
    (h : Recounted codec n value reader) (round : Nat) {c : Cursor} (hc : c.rest.length ≤ n) :
    Recounts (wrapped codec) (Direct.foldItem codec value round)
      (readItem reader round) c Option.isSome (fun t? => t?.elim [] told)
      fun t? => ∀ t ∈ t?, EntriesUpTo n t := by
  refine .reading_bind ⟨none, nofun⟩ fun more c' hmore => ?_
  cases more with
  | false => exact .done nofun rfl rfl
  | true =>
    have hc' : c'.rest.length ≤ n :=
      Nat.le_trans ((Advances.nextItem _).suffix hmore).length_le hc
    refine .map (.answered (h c' hc')) (fun t ht => ?_) (fun _ => rfl) fun _ => rfl
    rintro _ ⟨⟩
    exact ht

theorem foldMember_recounts {value : Decoder Cursor Unit} {reader : Parser Tree}
    (h : Recounted codec n value reader) (round : Nat) {c : Cursor} (hc : c.rest.length ≤ n) :
    Recounts (wrapped codec) (Direct.foldMember codec value round)
      (readMember reader round) c Option.isSome (fun kv? => kv?.elim [] fun kv => .key kv.1 :: told kv.2)
      fun kv? => ∀ kv ∈ kv?, EntriesUpTo n kv.2 := by
  refine .reading_bind ⟨none, nofun⟩ fun more c₁ hmore => ?_
  cases more with
  | false => exact .done nofun rfl rfl
  | true =>
    refine .reading_bind ⟨none, nofun⟩ fun k c₂ hkey => ?_
    have hvalue : Recounts (wrapped codec)
        (do Direct.parse codec colon; value; return true) (do colon; reader) c₂ (fun _ => true) told
        (EntriesUpTo n) := by
      refine .reading_bind ⟨.null, entriesUpTo_scalar rfl⟩ fun _ c₃ hcolon => .answered (h c₃ ?_)
      have h₁ := ((Advances.nextKey _).suffix hmore).length_le
      have h₂ := (Advances.key.suffix hkey).length_le
      have h₃ := (Advances.colon.suffix hcolon).length_le
      omega
    -- the pair is made of the key once its value has been read
    have hpair : (do colon; return some (k, ← reader) : Parser (Option (Bytes × Tree))) =
        (do colon; reader : Parser Tree) >>= fun t => pure (some (k, t)) := by rw [bind_assoc]
    refine hpair ▸ .map (.fold_bind hvalue) (fun t ht => ?_) (fun _ => rfl) fun _ => rfl
    rintro _ ⟨⟩
    exact ht

/-- A container, its entries between two events. -/
theorem container_recounts {α : Type} {step : Nat → Decoder Cursor Bool}
    {reader : Nat → Parser (Option α)} (opening ending : Event) (last : Parser Unit)
    {events : α → List Event} {p : α → Prop} {c : Cursor}
    (hround : ∀ round c', c'.rest.length ≤ c.rest.length →
      Recounts (wrapped codec) (step round) (reader round) c' Option.isSome
        (fun a? => a?.elim [] events) fun a? => ∀ a ∈ a?, p a)
    (hreader : ∀ round, Advances (reader round)) :
    Recounts (wrapped codec)
      (do Decoder.fold opening; Loop.rounds step 0 (← Direct.rest); Decoder.fold ending; Direct.parse codec last)
      (do let results ← Loop.gather reader (← get).rest; last; return results) c (fun _ => ())
      (fun results => opening :: (results.flatMap events ++ [ending]))
      fun results => (∀ a ∈ results, p a) ∧ results.length ≤ c.rest.length + 1 := by
  refine .fold_bind (rest_bind ?_)
  have hloop : Recounts (wrapped codec) (Loop.rounds step 0 c.rest) (Loop.gather reader c.rest) c
      (fun _ => ()) (fun results => results.flatMap events)
      fun results => (∀ a ∈ results, p a) ∧ results.length ≤ c.rest.length + 1 := by
    -- every round that goes on leaves less of the input
    refine .rounds (I := fun c' => c'.rest.length ≤ c.rest.length) hround ?_ (Nat.le_refl _)
    exact fun round c' _ c'' hc' hread =>
      Nat.le_trans ((hreader round).suffix hread).length_le hc'
  have hend : ∀ (results : List α) c', Recounts (wrapped codec)
      (do Decoder.fold ending; Direct.parse codec last) (do last; return results) c' (fun _ => ())
      (fun _ => [ending]) (results = ·) :=
    fun results c' => .fold_bind (.map (.reading last) (fun _ _ => rfl) (fun _ => rfl) fun _ => rfl)
  refine hloop.bind (fun results c' _ _ => hend results c') (w := fun _ _ => [ending]) (r := (· = ·))
    (fun results h => ⟨results, h, List.prefix_append _ _⟩) ?_
  rintro results _ h rfl
  exact ⟨h, rfl⟩

/-- The items of a list, between the events of a list. -/
theorem list_recounts {value : Decoder Cursor Unit} {reader : Parser Tree}
    (h : Recounted codec n value reader) (hreader : Advances reader) {c : Cursor}
    (hc : c.rest.length < n) : Recounts (wrapped codec)
      (do Decoder.fold (.beginList none); Loop.rounds (Direct.foldItem codec value) 0 (← Direct.rest)
          Decoder.fold .endList; Direct.parse codec listEnd)
      (readList reader) c (fun _ => ()) told (EntriesUpTo n) := by
  have hround : ∀ round c', c'.rest.length ≤ c.rest.length → Recounts (wrapped codec)
      (Direct.foldItem codec value round) (readItem reader round) c' Option.isSome (fun t? => t?.elim [] told)
      fun t? => ∀ t ∈ t?, EntriesUpTo n t :=
    fun round c' hc' => foldItem_recounts h round (Nat.le_trans hc' (Nat.le_of_lt hc))
  have hlist : Recounts _ _ _ _ (fun _ => ()) told (EntriesUpTo n) :=
    (container_recounts (.beginList none) .endList listEnd hround (readItem_advances hreader)).map
      (g := Tree.list) (fun items hitems => Tree.all_list.mpr ⟨Nat.le_trans hitems.2 hc, hitems.1⟩)
      Tree.arrival_list fun _ => rfl
  simpa only [readList, bind_assoc, pure_bind] using hlist

/-- The pairs of an object, between the events of a map. -/
theorem object_recounts {value : Decoder Cursor Unit} {reader : Parser Tree}
    (h : Recounted codec n value reader) (hreader : Advances reader) {c : Cursor}
    (hc : c.rest.length < n) : Recounts (wrapped codec)
      (do Decoder.fold (.beginMap none); Loop.rounds (Direct.foldMember codec value) 0 (← Direct.rest)
          Decoder.fold .endMap; Direct.parse codec objectEnd)
      (readObject reader) c (fun _ => ()) told (EntriesUpTo n) := by
  have hround : ∀ round c', c'.rest.length ≤ c.rest.length → Recounts (wrapped codec)
      (Direct.foldMember codec value round) (readMember reader round) c' Option.isSome
      (fun kv? => kv?.elim [] fun kv => .key kv.1 :: told kv.2) fun kv? => ∀ kv ∈ kv?, EntriesUpTo n kv.2 :=
    fun round c' hc' => foldMember_recounts h round (Nat.le_trans hc' (Nat.le_of_lt hc))
  have hmap : Recounts _ _ _ _ (fun _ => ()) told (EntriesUpTo n) :=
    (container_recounts (.beginMap none) .endMap objectEnd hround (readMember_advances hreader)).map
      (g := Tree.map) (fun pairs hpairs => Tree.all_map.mpr ⟨Nat.le_trans hpairs.2 hc, hpairs.1⟩)
      Tree.arrival_map fun _ => rfl
  simpa only [readObject, bind_assoc, pure_bind] using hmap

/-- **A value is recounted as its content**, whichever octets it is read from. -/
theorem fold_recounts (codec : String) (levels n : Nat) :
    Recounted codec n (Direct.fold codec levels) (readContent levels) := by
  have hsome : ∃ t, EntriesUpTo n t := ⟨.null, entriesUpTo_scalar rfl⟩
  induction levels with
  | zero =>
    intro c hc
    rw [Direct.fold, readContent, readValue]
    refine .reading_bind hsome fun next c' _ => ?_
    cases next with
    | number m => cases m <;> exact .fold (entriesUpTo_scalar rfl) rfl
    | listStart => exact .reading_fails hsome rfl rfl
    | objectStart => exact .reading_fails hsome rfl rfl
    | _ => exact .fold (entriesUpTo_scalar rfl) rfl
  | succ levels ih =>
    intro c hc
    rw [Direct.fold, readContent, readValue]
    refine .reading_bind hsome fun next c' htoken => ?_
    cases next with
    | number m => cases m <;> exact .fold (entriesUpTo_scalar rfl) rfl
    | listStart =>
      exact list_recounts ih (readContent_advances levels)
        (Nat.lt_of_lt_of_le (token_spends.lt htoken) hc)
    | objectStart =>
      exact object_recounts ih (readContent_advances levels)
        (Nat.lt_of_lt_of_le (token_spends.lt htoken) hc)
    | _ => exact .fold (entriesUpTo_scalar rfl) rfl

/-! ## Whole texts -/

variable {input : Bytes} {t : Tree} {fault : Fault} {o : FoldOptions}

theorem traversal_told (t : Tree) : Traversal t (told t) := by
  have htold := Tree.traversal_uncounted id t
  rwa [Tree.mapIntegers_id] at htold

/-- Texts that are short enough have a content that can be counted. -/
theorem EntriesUpTo.countable (h : EntriesUpTo n t) (hn : n < 0x100000000) : t.Countable :=
  Tree.All.mono (fun _ hs => Nat.lt_of_le_of_lt hs hn) h

/-- A whole text is recounted as its content. -/
theorem text_recounts (codec : String) (input : Bytes) :
    Recounts (wrapped codec) (Direct.document codec)
      (do let t ← readContent nestingCeiling; Parser.finished; return t) (Cursor.start input)
      (fun _ => ()) told (EntriesUpTo input.length) :=
  (fold_recounts codec nestingCeiling input.length (Cursor.start input) (Nat.le_refl _)).then_reading

/-- **Of an accepted text, the events of its content are folded.** -/
theorem decodeStream_accepted (codec : String) (h : content input = .ok t) :
    EntriesUpTo input.length t ∧ ∀ o, decodeStream codec input o = foldEvents .decode (told t) o := by
  unfold content at h
  dsimp only at h
  split at h
  next c hread =>
    cases h
    obtain ⟨hentries, hhands⟩ := (text_recounts codec input).ok hread
    refine ⟨hentries, fun o => ?_⟩
    have hstart := hhands (.start .decode o)
    rw [decodeStream_eq, Decoder.run, foldEvents]
    cases hes : Folding.events (told t) (.start .decode o) with
    | ok _ f =>
      rw [hes] at hstart
      rw [Steps.bind_ok hstart, Decoder.finish, Steps.bind_ok (Steps.get_apply _)]
      dsimp only
      cases f.finish <;> rfl
    | error e f =>
      rw [hes] at hstart
      obtain ⟨d, hd⟩ := hstart
      rw [Steps.bind_error hd]
  next => cases h

/-- **Of a text with a fault, a beginning of the events of some tree is folded.** -/
theorem decodeStream_refused (codec : String) (h : content input = .error fault) (o : FoldOptions) :
    ∃ t es, EntriesUpTo input.length t ∧ es <+: told t ∧
      decodeStream codec input o = match Folding.events es (.start .decode o) with
        | .ok _ _ => .error (.decode (.parser codec fault))
        | .error e _ => .error e := by
  unfold content at h
  dsimp only at h
  split at h
  next => cases h
  next c hread =>
    cases h
    obtain ⟨t, es, hentries, hes, hhands⟩ := (text_recounts codec input).error hread
    refine ⟨t, es, hentries, hes, ?_⟩
    have hstart := hhands (.start .decode o)
    rw [decodeStream_eq, Decoder.run]
    cases hes : Folding.events es (.start .decode o) with
    | ok _ f =>
      rw [hes] at hstart
      rw [Steps.bind_error hstart]
    | error e f =>
      rw [hes] at hstart
      obtain ⟨d, hd⟩ := hstart
      rw [Steps.bind_error hd]

end TreeDigest.Json
