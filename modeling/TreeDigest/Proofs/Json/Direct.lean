import TreeDigest.Input.Decoding
import TreeDigest.Json.Codec
import TreeDigest.Output.Encoding
import TreeDigest.Proofs.Steps
import TreeDigest.Proofs.Tree

/-!
# What is noted comes out

The codec that folds while it writes and reads does so in steps that fail with causes of
their own and note the errors of the fold. All of it could be said more directly, in steps
that fail with those errors themselves: `Direct.write` and `Direct.fold`. The steps with
notes are related to these by `Notes`, which goes through sequences and loops, and what
comes out at the end is the same.

For writing there is more to it. A serializer has nothing to fail of, so it never stops but
for an error that was noted, and its cause is never what is reported.
-/

namespace TreeDigest.Json

/-! ## Steps that fail with the errors of the fold -/

namespace Direct

variable (codec : String)

mutual

/-- Writes a tree and folds it. -/
def write : Tree → Encoder Unit
  | .null => do
    Encoder.fold .null
    Encoder.put nullForm
  | .bool b => do
    Encoder.fold (.bool b)
    Encoder.put (boolForm b)
  | .int i => do
    Encoder.fold (.int i)
    Encoder.put (intForm i)
  | .uint u => do
    Encoder.fold (.uint u)
    Encoder.put (uintForm u)
  | .double bits => do
    require (requireFinite codec bits)
    Encoder.fold (.double bits)
    Encoder.put (doubleForm bits)
  | .text octets => do
    require (requireText codec octets)
    Encoder.fold (.text octets)
    Encoder.put (textForm octets)
  | .list items => do
    let count ← Encoder.count items.length
    Encoder.fold (.beginList (some count))
    Encoder.put [0x5B]
    writeItems true items
    Encoder.fold .endList
    Encoder.put [0x5D]
  | .map pairs => do
    let count ← Encoder.count pairs.length
    Encoder.fold (.beginMap (some count))
    Encoder.put [0x7B]
    writePairs true pairs
    Encoder.fold .endMap
    Encoder.put [0x7D]

def writeItems (isFirst : Bool) : List Tree → Encoder Unit
  | [] => pure ()
  | item :: items => do
    Encoder.put (separator isFirst)
    write item
    writeItems false items

def writePairs (isFirst : Bool) : List (Bytes × Tree) → Encoder Unit
  | [] => pure ()
  | (k, value) :: pairs => do
    require (requireText codec k)
    Encoder.fold (.key k)
    Encoder.put (separator isFirst ++ textForm k ++ [0x3A])
    write value
    writePairs false pairs

end

/-- A step of a parser, with its faults reported as those of a codec. -/
def parse {α : Type} (step : Parser α) : Decoder Cursor α :=
  Decoder.reading (fun fault => .decode (.parser codec fault)) step

/-- Hands a number to the folder. -/
def foldNumber : Number → Decoder Cursor Unit
  | .unsigned u => Decoder.fold (.uint u)
  | .negative i => Decoder.fold (.int i)
  | .double bits => Decoder.fold (.double bits)

/-- The octets that are left. -/
def rest : Decoder Cursor Bytes := return (← get).input.rest

/-- Hands the next item of a list to the folder, by a step for values, if there is one. -/
def foldItem (value : Decoder Cursor Unit) (round : Nat) : Decoder Cursor Bool := do
  if ← parse codec (nextItem (round == 0)) then
    value
    return true
  else return false

/-- Hands the next pair of an object to the folder, by a step for values, if there is one. -/
def foldMember (value : Decoder Cursor Unit) (round : Nat) : Decoder Cursor Bool := do
  if ← parse codec (nextKey (round == 0)) then
    Decoder.fold (.key (← parse codec key))
    parse codec colon
    value
    return true
  else return false

/-- Hands one value to the folder. `levels` is how many more containers may open in the text. -/
def fold (levels : Nat) : Decoder Cursor Unit := do
  match ← parse codec token with
  | .null => Decoder.fold .null
  | .bool b => Decoder.fold (.bool b)
  | .number n => foldNumber n
  | .text octets => Decoder.fold (.text octets)
  | .listStart =>
    match levels with
    | 0 => parse codec (Parser.fail .tooDeep)
    | levels + 1 => do
      Decoder.fold (.beginList none)
      Loop.rounds (foldItem codec (fold levels)) 0 (← rest)
      Decoder.fold .endList
      parse codec listEnd
  | .objectStart =>
    match levels with
    | 0 => parse codec (Parser.fail .tooDeep)
    | levels + 1 => do
      Decoder.fold (.beginMap none)
      Loop.rounds (foldMember codec (fold levels)) 0 (← rest)
      Decoder.fold .endMap
      parse codec objectEnd

/-- Hands a whole text to the folder. -/
def document : Decoder Cursor Unit := do
  fold codec nestingCeiling
  parse codec Parser.finished

end Direct

/-! ## The same step with notes -/

/--
A step notes what a direct step fails with. It has the same result and leaves the same
behind. Where the direct step fails, its error has been noted, or it is what a cause of the
step's own reports.
-/
structure Notes {ε σ τ α : Type} (own : τ → σ) (folder : τ → Folder) (reports : ε → Error → Prop)
    (step : Attended ε σ α) (direct : EStateM Error τ α) : Prop where
  ok : ∀ {s a s'}, direct s = .ok a s' →
    step ⟨own s, folder s, none⟩ = .ok a ⟨own s', folder s', none⟩
  error : ∀ {s e s'}, direct s = .error e s' → ∃ cause,
    step ⟨own s, folder s, none⟩ = .error cause ⟨own s', folder s', some e⟩ ∨
      step ⟨own s, folder s, none⟩ = .error cause ⟨own s', folder s', none⟩ ∧ reports cause e

namespace Notes

variable {ε σ τ α β ρ : Type} {own : τ → σ} {folder : τ → Folder} {reports : ε → Error → Prop}
  {step : Attended ε σ α} {direct : EStateM Error τ α}

theorem pure (a : α) : Notes own folder reports (pure a) (pure a) where
  ok h := by cases h; rfl
  error h := by cases h

theorem bind {next : α → Attended ε σ β} {next' : α → EStateM Error τ β}
    (h : Notes own folder reports step direct)
    (hnext : ∀ a, Notes own folder reports (next a) (next' a)) :
    Notes own folder reports (step >>= next) (direct >>= next') where
  ok hok := by
    obtain ⟨a, s₁, hfirst, hsecond⟩ := Steps.bind_eq_ok_iff.mp hok
    rw [Steps.bind_ok (h.ok hfirst)]
    exact (hnext a).ok hsecond
  error herror := by
    rcases Steps.bind_eq_error_iff.mp herror with hfirst | ⟨a, s₁, hfirst, hsecond⟩
    · obtain ⟨cause, hnoted | ⟨hown, hreports⟩⟩ := h.error hfirst
      · exact ⟨cause, .inl (Steps.bind_error hnoted)⟩
      · exact ⟨cause, .inr ⟨Steps.bind_error hown, hreports⟩⟩
    · rw [Steps.bind_ok (h.ok hfirst)]
      exact (hnext a).error hsecond

theorem rounds {step : Nat → Attended ε σ Bool} {direct : Nat → EStateM Error τ Bool}
    (h : ∀ round, Notes own folder reports (step round) (direct round)) (round : Nat)
    (room : List ρ) :
    Notes own folder reports (Loop.rounds step round room) (Loop.rounds direct round room) := by
  induction room generalizing round with
  | nil => exact bind (h round) fun _ => pure ()
  | cons _ room ih =>
    refine bind (h round) fun more => ?_
    cases more with
    | true => exact ih (round + 1)
    | false => exact pure ()

/-- An event that is refused is noted. -/
theorem fold {cause : σ → ε} {e : Event} {direct : EStateM Error τ Unit} (put : τ → Folder → τ)
    (hown : ∀ s f, own (put s f) = own s) (hfolder : ∀ s f, folder (put s f) = f)
    (hdirect : ∀ s, direct s = match Folding.event e (folder s) with
      | .ok _ f => .ok () (put s f)
      | .error e f => .error e (put s f)) :
    Notes own folder reports (Attended.fold cause e) direct where
  ok {s a s'} hok := by
    rw [hdirect] at hok
    rw [Attended.fold]
    dsimp only
    split at hok
    · cases hok
      simp only [*]
    · cases hok
  error {s x s'} herror := by
    rw [hdirect] at herror
    rw [Attended.fold]
    dsimp only
    split at herror
    · cases herror
    · cases herror
      simp only [*]
      exact ⟨_, .inl rfl⟩

/-- Giving up notes the error that would be failed with. -/
theorem giveUp (cause : σ → ε) (e : Error) :
    Notes own folder reports (Attended.giveUp cause e : Attended ε σ α) (throw e) where
  ok hok := by cases hok
  error herror := by cases herror; exact ⟨_, .inl rfl⟩

/-- **What comes out of a run is what comes of the direct step.** -/
theorem run {wrap : ε → Error} {side : Side} {o : FoldOptions} {s : τ}
    (h : Notes own folder reports step direct) (hreports : ∀ {cause e}, reports cause e → wrap cause = e)
    (hfresh : folder s = .start side o) :
    Attended.run wrap step (own s) side o = match direct s with
      | .ok _ s' => .ok ⟨own s', folder s', none⟩
      | .error e _ => .error e := by
  rw [Attended.run, ← hfresh]
  cases hdirect : direct s with
  | ok a s' => rw [h.ok hdirect]; rfl
  | error e s' =>
    obtain ⟨cause, hnoted | ⟨hown, hcause⟩⟩ := h.error hdirect
    · rw [hnoted]; rfl
    · rw [hown, ← hreports hcause]; rfl

end Notes

/-! ## Writing -/

namespace Serializer

variable {α : Type} {codec : String}

/-- A serializer fails of nothing but what was noted. -/
abbrev Notes (step : Attended Cause Output α) (direct : Encoder α) : Prop :=
  Json.Notes Encoding.output Encoding.folder (fun _ _ => False) step direct

theorem notes_fold (e : Event) : Notes (fold e) (Encoder.fold e) :=
  .fold (fun s folder => { s with folder }) (fun _ _ => rfl) (fun _ _ => rfl) fun _ => rfl

theorem notes_emit (bytes : Bytes) : Notes (emit bytes) (Encoder.put bytes) where
  ok hok := by cases hok; rfl
  error herror := by cases herror

theorem notes_giveUp (e : Error) : Notes (require (.error e) : Attended Cause Output α) (throw e) :=
  Json.Notes.giveUp (fun _ : Output => Cause.aborted) e

theorem notes_require (refusal : Except Error Unit) :
    Notes (require refusal) (Json.require refusal) := by
  cases refusal with
  | ok _ => exact .pure ()
  | error e => exact notes_giveUp e

theorem notes_count (n : Nat) : Notes (require (Folder.countOf n)) (Encoder.count n) := by
  rw [Encoder.count]
  cases Folder.countOf n with
  | ok count => exact .pure count
  | error e => exact notes_giveUp e

theorem notes_items {items : List Tree} (isFirst : Bool)
    (h : ∀ t ∈ items, Notes (write codec t) (Direct.write codec t)) :
    Notes (writeItems codec isFirst items) (Direct.writeItems codec isFirst items) := by
  induction items generalizing isFirst with
  | nil => exact .pure ()
  | cons item items ih =>
    rw [List.forall_mem_cons] at h
    exact .bind (notes_emit _) fun _ => .bind h.1 fun _ => ih false h.2

theorem notes_pairs {pairs : List (Bytes × Tree)} (isFirst : Bool)
    (h : ∀ kv ∈ pairs, Notes (write codec kv.2) (Direct.write codec kv.2)) :
    Notes (writePairs codec isFirst pairs) (Direct.writePairs codec isFirst pairs) := by
  induction pairs generalizing isFirst with
  | nil => exact .pure ()
  | cons pair pairs ih =>
    obtain ⟨k, value⟩ := pair
    rw [List.forall_mem_cons] at h
    exact .bind (notes_require _) fun _ => .bind (notes_fold _) fun _ =>
      .bind (notes_emit _) fun _ => .bind h.1 fun _ => ih false h.2

/-- **The serializer of a tree stops for nothing but what was noted.** -/
theorem notes_write (t : Tree) : Notes (write codec t) (Direct.write codec t) := by
  induction t using Tree.induct with
  | scalar t hscalar =>
    cases t with
    | list items => exact Bool.noConfusion hscalar
    | map pairs => exact Bool.noConfusion hscalar
    | double bits =>
      exact .bind (notes_require _) fun _ => .bind (notes_fold _) fun _ => notes_emit _
    | text octets =>
      exact .bind (notes_require _) fun _ => .bind (notes_fold _) fun _ => notes_emit _
    | _ => exact .bind (notes_fold _) fun _ => notes_emit _
  | list items ih =>
    exact .bind (notes_count _) fun _ => .bind (notes_fold _) fun _ => .bind (notes_emit _) fun _ =>
      .bind (notes_items true ih) fun _ => .bind (notes_fold _) fun _ => notes_emit _
  | map pairs ih =>
    exact .bind (notes_count _) fun _ => .bind (notes_fold _) fun _ => .bind (notes_emit _) fun _ =>
      .bind (notes_pairs true ih) fun _ => .bind (notes_fold _) fun _ => notes_emit _

end Serializer

/-- **What comes of writing with notes is what comes of writing directly.** -/
theorem encodeStream_eq (codec : String) (t : Tree) (o : FoldOptions) :
    encodeStream codec t o = Encoder.run (Direct.write codec t) o := by
  have hnotes : Serializer.Notes (write codec t) (Direct.write codec t) := Serializer.notes_write t
  have hstart : Encoding.folder ⟨Output.empty, .start .encode o⟩ = .start .encode o := rfl
  have hrun : ∀ wrap, Attended.run wrap (write codec t) Output.empty .encode o = _ :=
    fun _ => hnotes.run False.elim hstart
  rw [encodeStream, hrun, Encoder.run]
  cases Direct.write codec t ⟨Output.empty, .start .encode o⟩ with
  | error e s => rfl
  | ok _ s => cases hfinish : s.folder.finish <;> simp [hfinish, bind, Except.bind, pure, Except.pure]

/-- **A serializer that has stopped has noted an error, and that is what comes out.** -/
theorem encodeStream_of_stopped {codec : String} {t : Tree} {o : FoldOptions} {cause : Cause}
    {s : WithFold Output}
    (h : write codec t ⟨Output.empty, .start .encode o, none⟩ = .error cause s) :
    ∃ e, s.noted = some e ∧ encodeStream codec t o = .error e := by
  have hnotes : Serializer.Notes (write codec t) (Direct.write codec t) := Serializer.notes_write t
  rw [encodeStream_eq, Encoder.run]
  cases hdirect : Direct.write codec t ⟨Output.empty, .start .encode o⟩ with
  | ok _ s' =>
    rw [hnotes.ok hdirect] at h
    cases h
  | error e s' =>
    obtain ⟨cause', hnoted | ⟨-, hnone⟩⟩ := hnotes.error hdirect
    · rw [hnoted] at h
      cases h
      exact ⟨e, rfl, rfl⟩
    · exact hnone.elim

/-! ## Reading -/

namespace Visitor

variable {α : Type} {codec : String}

/-- A parser fails of what was noted, or of a fault that its codec reports. -/
abbrev Notes (codec : String) (step : Visitor α) (direct : Decoder Cursor α) : Prop :=
  Json.Notes Decoding.input Decoding.folder (fun fault e => .decode (.parser codec fault) = e) step
    direct

theorem notes_fold (e : Event) : Notes codec (fold e) (Decoder.fold e) :=
  .fold (fun d folder => { d with folder }) (fun _ _ => rfl) (fun _ _ => rfl) fun _ => rfl

theorem notes_parse (step : Parser α) : Notes codec (parse step) (Direct.parse codec step) where
  ok {d a d'} hok := by
    rw [Direct.parse, Decoder.reading] at hok
    rw [parse, Attended.own]
    dsimp only
    split at hok
    · cases hok
      simp only [*]
    · cases hok
  error {d e d'} herror := by
    rw [Direct.parse, Decoder.reading] at herror
    rw [parse, Attended.own]
    dsimp only
    split at herror
    · cases herror
    · cases herror
      simp only [*]
      exact ⟨_, .inr ⟨rfl, rfl⟩⟩

theorem notes_rest : Notes codec rest Direct.rest where
  ok hok := by cases hok; rfl
  error herror := by cases herror

theorem notes_number (n : Number) : Notes codec (foldNumber n) (Direct.foldNumber n) := by
  cases n <;> exact notes_fold _

theorem notes_item {value : Visitor Unit} {direct : Decoder Cursor Unit}
    (h : Notes codec value direct) (round : Nat) :
    Notes codec (item value round) (Direct.foldItem codec direct round) := by
  refine .bind (notes_parse _) fun more => ?_
  cases more with
  | true => exact .bind h fun _ => .pure true
  | false => exact .pure false

theorem notes_member {value : Visitor Unit} {direct : Decoder Cursor Unit}
    (h : Notes codec value direct) (round : Nat) :
    Notes codec (member value round) (Direct.foldMember codec direct round) := by
  refine .bind (notes_parse _) fun more => ?_
  cases more with
  | true =>
    exact .bind (notes_parse _) fun _ => .bind (notes_fold _) fun _ => .bind (notes_parse _) fun _ =>
      .bind h fun _ => .pure true
  | false => exact .pure false

/-- **The visitor of a value notes what folding it fails with.** -/
theorem notes_value (levels : Nat) : Notes codec (value levels) (Direct.fold codec levels) := by
  induction levels with
  | zero =>
    rw [value, Direct.fold]
    refine .bind (notes_parse _) fun next => ?_
    cases next with
    | number n => exact notes_number n
    | listStart => exact notes_parse _
    | objectStart => exact notes_parse _
    | _ => exact notes_fold _
  | succ levels ih =>
    rw [value, Direct.fold]
    refine .bind (notes_parse _) fun next => ?_
    cases next with
    | number n => exact notes_number n
    | listStart =>
      exact .bind (notes_fold _) fun _ => .bind notes_rest fun _ =>
        .bind (.rounds (notes_item ih) 0 _) fun _ => .bind (notes_fold _) fun _ => notes_parse _
    | objectStart =>
      exact .bind (notes_fold _) fun _ => .bind notes_rest fun _ =>
        .bind (.rounds (notes_member ih) 0 _) fun _ => .bind (notes_fold _) fun _ => notes_parse _
    | _ => exact notes_fold _

theorem notes_document : Notes codec document (Direct.document codec) :=
  .bind (notes_value _) fun _ => notes_parse _

end Visitor

/-- **What comes of reading with notes is what comes of reading directly.** -/
theorem decodeStream_eq (codec : String) (input : Bytes) (o : FoldOptions) :
    decodeStream codec input o =
      Decoder.run (do Direct.document codec; Decoder.finish) (Cursor.start input) o := by
  have hnotes : Visitor.Notes codec _ _ := Visitor.notes_document
  have hstart : Decoding.folder (⟨Cursor.start input, .start .decode o⟩ : Decoding Cursor) =
      .start .decode o := rfl
  have hrun := hnotes.run id hstart
  rw [decodeStream, hrun, Decoder.run]
  cases hdirect : Direct.document codec ⟨Cursor.start input, .start .decode o⟩ with
  | error e d =>
    rw [Steps.bind_error hdirect]
    rfl
  | ok _ d =>
    rw [Steps.bind_ok hdirect, Decoder.finish, Steps.bind_ok (Steps.get_apply _)]
    cases hfinish : d.folder.finish <;> simp [hfinish, bind, Except.bind]

end TreeDigest.Json
