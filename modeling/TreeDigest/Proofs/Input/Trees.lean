import TreeDigest.Codec
import TreeDigest.Proofs.Fold.Walk
import TreeDigest.Proofs.Limited

/-!
# Readers of whole inputs

Where a format has a reader of trees, its decoders answer as if they read a tree and folded it,
whether they do or not. What they answer then follows from the reader, and of this no more has to
be known than three things. Its limit decides only whether a tree is read and not which, what is
read can be counted, and it fails with errors of decoding only.
-/

namespace TreeDigest

/-- Trees are read of whole inputs, within limits. -/
structure ReadsTrees (read : Bytes → Nat → Except Error Tree) : Prop where
  /-- What is read within one limit says what is read within every other. -/
  limited : ∀ {input limit t}, read input limit = .ok t → ∀ limit', read input limit' =
    if t.depth ≤ limit' then .ok t else .error (.decode (.depthExceeded limit'))
  countable : ∀ {input limit t}, read input limit = .ok t → t.Countable
  error : ∀ {input limit e}, read input limit = .error e → ∃ e', e = .decode e'

/-- A codec answers as if it read a tree within its limit and folded it. -/
def Codec.Folds (codec : Codec) (read : Bytes → Nat → Except Error Tree) : Prop :=
  ∀ input o, codec.decode input o = do foldTree (← read input o.depthLimit) o

namespace ReadsTrees

variable {read : Bytes → Nat → Except Error Tree} {codec : Codec} {input : Bytes} {limit : Nat}
  {t : Tree} {o : FoldOptions}

/-- A reader of one element reads whole inputs, if limits make no other difference to it. -/
theorem of_whole {reader : Bytes → Nat → Reader Tree}
    (hlimited : ∀ input limit limit',
      Reader.LimitedTo limit limit (reader input limit) (reader input limit'))
    (hfits : ∀ {input limit c t c'}, reader input limit c = .ok t c' →
      t.depth ≤ limit ∧ t.Countable) :
    ReadsTrees fun input limit => (reader input limit).whole input where
  limited h limit' := (hlimited _ limit' _).whole h
  countable h := by
    obtain ⟨c, hread, -⟩ := Reader.whole_ok h
    exact (hfits hread).2
  error h := by
    unfold Reader.whole at h
    split at h
    · cases h
    · cases h
      exact ⟨_, rfl⟩

/-- What was read comes to its digest, if it fits. -/
theorem fold_of_ok (hreads : ReadsTrees read) (h : read input limit = .ok t) (o : FoldOptions) :
    (do foldTree (← read input o.depthLimit) o) = if t.depth ≤ o.depthLimit then .ok (t.digest o)
      else .error (.decode (.depthExceeded o.depthLimit)) := by
  rw [hreads.limited h]
  split
  · rename_i hdepth
    exact foldTreeOn_eq hdepth (hreads.countable h)
  · rfl

/-- An input that is read is decoded to the digest of its tree. -/
theorem decode_of_read (hreads : ReadsTrees read) (hfolds : codec.Folds read)
    (h : read input limit = .ok t) (hdepth : t.depth ≤ o.depthLimit) :
    codec.decode input o = .ok (t.digest o) := by
  rw [hfolds, hreads.fold_of_ok h, if_pos hdepth]

/-- An input that is read within no limit is refused. -/
theorem decode_of_unread (hreads : ReadsTrees read) (hfolds : codec.Folds read)
    (hunread : ∀ limit t, read input limit ≠ .ok t) (o : FoldOptions) :
    ∃ e, codec.decode input o = .error (.decode e) := by
  rw [hfolds]
  cases hread : read input o.depthLimit with
  | ok t => exact absurd hread (hunread _ t)
  | error e =>
    obtain ⟨e, rfl⟩ := hreads.error hread
    exact ⟨e, rfl⟩

end ReadsTrees

/-- An input that is decoded was read. -/
theorem Codec.Folds.read {codec : Codec} {read : Bytes → Nat → Except Error Tree} {input : Bytes}
    {o : FoldOptions} {digest : Digest} (hfolds : codec.Folds read)
    (h : codec.decode input o = .ok digest) : ∃ t, read input o.depthLimit = .ok t := by
  rw [hfolds] at h
  cases hread : read input o.depthLimit with
  | ok t => exact ⟨t, rfl⟩
  | error e => rw [hread] at h; cases h

end TreeDigest
