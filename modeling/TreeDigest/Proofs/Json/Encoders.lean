import TreeDigest.Proofs.Fold.Stops
import TreeDigest.Proofs.Json.Errors

/-!
# The two JSON encoders agree

One encoder folds while it writes, the other checks and folds the tree first and writes
afterwards. On a tree without repeated keys the check does to its folder what the writing
does, step by step, and where the writing fails it fails with the same error, in its own
name: it *echoes* the writing (`Echoes`). So of several things wrong with a tree both come
upon the same one first. On success both give the form of the tree and its digest, which is
known of each by itself.

A tree with a repeated key is refused by the encoder that checks, at the latest for that key.
-/

namespace TreeDigest

/-- An error as a certain codec reports it. -/
def Error.reportedBy (codec : String) : Error → Error
  | .encode (.unrepresentable _ what) => .encode (.unrepresentable codec what)
  | .decode (.parser _ fault) => .decode (.parser codec fault)
  | e => e

/-- What a folder refuses it refuses in no codec's name. -/
theorem Error.OfFold.reportedBy {codec : String} {e : Error} (h : e.OfFold) :
    e.reportedBy codec = e := by
  cases h with
  | violation v => rfl
  | depth side limit => cases side <;> rfl
  | count declared actual => rfl

end TreeDigest

namespace TreeDigest.Json

/-! ## One step and its echo -/

/--
A step of folding echoes a step of encoding if it does the same to the folder, with the same
result, and fails with the same error, reported by its own codec.
-/
structure Echoes {α : Type} (codec : String) (step : Encoder α) (act : Folding α) : Prop where
  ok : ∀ {s a s'}, step s = .ok a s' → act s.folder = .ok a s'.folder
  error : ∀ {s e s'}, step s = .error e s' → ∃ f, act s.folder = .error (e.reportedBy codec) f

namespace Echoes

variable {α β : Type} {codec codec' : String} {step : Encoder α} {act : Folding α}

theorem pure (a : α) : Echoes codec (pure a : Encoder α) (pure a) where
  ok hok := by cases hok; rfl
  error herror := by cases herror

theorem bind {next : α → Encoder β} {act' : α → Folding β} (h : Echoes codec step act)
    (hnext : ∀ a, Echoes codec (next a) (act' a)) :
    Echoes codec (step >>= next) (act >>= act') where
  ok hok := by
    obtain ⟨a, s₁, hstep, hok⟩ := Steps.bind_eq_ok_iff.mp hok
    rw [Steps.bind_ok (h.ok hstep)]
    exact (hnext a).ok hok
  error herror := by
    rcases Steps.bind_eq_error_iff.mp herror with hstep | ⟨a, s₁, hstep, herror⟩
    · exact Steps.bind_fails (h.error hstep)
    · rw [Steps.bind_ok (h.ok hstep)]
      exact (hnext a).error herror

/-- Octets that are written before a step have no echo. -/
theorem put_before {bytes : Bytes} (h : Echoes codec step act) :
    Echoes codec (do Encoder.put bytes; step) act where
  ok hok := by
    obtain ⟨_, s₁, hput, hok⟩ := Steps.bind_eq_ok_iff.mp hok
    rw [← (Encoder.Keeps.put hput).2]
    exact h.ok hok
  error {s e s'} herror := by
    rcases Steps.bind_eq_error_iff.mp herror with hput | ⟨_, s₁, hput, herror⟩
    · cases hput
    · rw [← (Encoder.Keeps.put hput).2]
      exact h.error herror

/-- Neither have octets that are written after it. -/
theorem put_after {step : Encoder Unit} {act : Folding Unit} {bytes : Bytes}
    (h : Echoes codec step act) : Echoes codec (do step; Encoder.put bytes) act where
  ok hok := by
    obtain ⟨_, s₁, hstep, hput⟩ := Steps.bind_eq_ok_iff.mp hok
    rw [(Encoder.Keeps.put hput).2]
    exact h.ok hstep
  error herror := by
    rcases Steps.bind_eq_error_iff.mp herror with hstep | ⟨_, s₁, _, hput⟩
    · exact h.error hstep
    · cases hput

theorem fold (e : Event) : Echoes codec (Encoder.fold e) (Folding.event e) where
  ok hok := by
    obtain ⟨f, hevent, rfl⟩ := Encoder.fold_eq_ok_iff.mp hok
    exact hevent
  error {s x s'} herror := by
    unfold Encoder.fold at herror
    split at herror
    · cases herror
    · rename_i f hevent
      cases herror
      rw [((Folding.event_failsWith e).error hevent).reportedBy]
      exact ⟨f, hevent⟩

theorem count (n : Nat) : Echoes codec (Encoder.count n) (Folding.count n) where
  ok hok := by
    obtain ⟨hn, rfl, rfl⟩ := Encoder.count_eq_ok_iff.mp hok
    exact Folder.count_ok hn
  error {s e s'} herror := by
    by_cases hn : n < 0x100000000
    · rw [Encoder.count, Folder.countOf, if_pos hn] at herror
      cases herror
    · rw [Encoder.count, Folder.countOf, if_neg hn] at herror
      cases herror
      exact ⟨_, Folding.count_overflows hn⟩

/-- What stands against some content stands against it in either codec. -/
theorem require {refusal refusal' : Except Error Unit}
    (h : refusal' = refusal.mapError (Error.reportedBy codec)) :
    Echoes codec (require refusal) (require refusal') := by
  subst h
  cases refusal with
  | ok _ => exact .pure ()
  | error e =>
    refine ⟨fun hok => ?_, fun herror => ?_⟩
    · cases hok
    · cases herror
      exact ⟨_, rfl⟩

theorem requireText (octets : Bytes) :
    Echoes codec' (Json.require (Json.requireText codec octets))
      (Json.require (Json.requireText codec' octets)) := by
  refine require ?_
  unfold Json.requireText
  cases Utf8.fault? octets <;> rfl

theorem requireFinite (bits : UInt64) :
    Echoes codec' (Json.require (Json.requireFinite codec bits))
      (Json.require (Json.requireFinite codec' bits)) := by
  refine require ?_
  unfold Json.requireFinite
  split <;> rfl

end Echoes

/-! ## The check echoes the writing -/

variable {codec codec' : String} {t : Tree} {o : FoldOptions}

theorem checkItems_echoes {items : List Tree} (isFirst : Bool)
    (h : ∀ t ∈ items, Echoes codec' (Direct.write codec t) (check codec' t)) :
    Echoes codec' (Direct.writeItems codec isFirst items) (checkItems codec' items) := by
  induction items generalizing isFirst with
  | nil => exact .pure ()
  | cons item items ih =>
    rw [List.forall_mem_cons] at h
    exact .put_before (.bind h.1 fun _ => ih false h.2)

/-- Keys that differ from each other and from those seen before are not refused for that. -/
theorem checkPairs_echoes {pairs : List (Bytes × Tree)} {seen : Std.HashSet Bytes} (isFirst : Bool)
    (h : ∀ kv ∈ pairs, Echoes codec' (Direct.write codec kv.2) (check codec' kv.2))
    (hdistinct : (pairs.map Prod.fst).Nodup) (hseen : ∀ kv ∈ pairs, seen.contains kv.1 = false) :
    Echoes codec' (Direct.writePairs codec isFirst pairs) (checkPairs codec' seen pairs) := by
  induction pairs generalizing isFirst seen with
  | nil => exact .pure ()
  | cons pair pairs ih =>
    obtain ⟨k, value⟩ := pair
    rw [List.forall_mem_cons] at h hseen
    rw [List.map_cons, List.nodup_cons] at hdistinct
    rw [checkPairs, hseen.1, if_neg Bool.false_ne_true]
    exact .bind (.requireText k) fun _ => .bind (.fold _) fun _ =>
      .put_before (.bind h.1 fun _ => ih false h.2 hdistinct.2 (unseen_insert hdistinct.1 hseen.2))

/-- **On a tree without repeated keys the check echoes the writing.** -/
theorem check_echoes (h : Distinct t) : Echoes codec' (Direct.write codec t) (check codec' t) := by
  induction t using Tree.induct with
  | scalar t hscalar =>
    cases t with
    | list items => exact Bool.noConfusion hscalar
    | map pairs => exact Bool.noConfusion hscalar
    | double bits => exact .bind (.requireFinite bits) fun _ => .put_after (.fold _)
    | text octets => exact .bind (.requireText octets) fun _ => .put_after (.fold _)
    | _ => exact .put_after (.fold _)
  | list items ih =>
    have hitems := distinct_list.mp h
    exact .bind (.count _) fun _ => .bind (.fold _) fun _ => .put_before <|
      .bind (checkItems_echoes true fun t ht => ih t ht (hitems t ht)) fun _ => .put_after (.fold _)
  | map pairs ih =>
    obtain ⟨hkeys, hpairs⟩ := distinct_map.mp h
    have hnone : ∀ kv ∈ pairs, (∅ : Std.HashSet Bytes).contains kv.1 = false :=
      fun _ _ => Std.HashSet.contains_empty
    exact .bind (.count _) fun _ => .bind (.fold _) fun _ => .put_before <|
      .bind (checkPairs_echoes true (fun kv hkv => ih kv hkv (hpairs kv hkv)) hkeys hnone)
        fun _ => .put_after (.fold _)

/-! ## Whole documents -/

theorem finish_reportedBy {f : Folder} {e : Error} (h : f.finish = .error e) :
    e.reportedBy codec = e := by
  unfold Folder.finish at h
  split at h
  · split at h <;> cases h
    rfl
  · cases h
    rfl

/-- An error of the encoder that writes is one of the encoder that checks. -/
theorem encodeTree_error {e : Error} (h : Distinct t) (herror : encodeStream codec t o = .error e) :
    encodeTree codec' t o = .error (e.reportedBy codec') := by
  have hechoes : Echoes codec' (Direct.write codec t) (check codec' t) := check_echoes h
  rw [encodeStream_eq] at herror
  unfold Encoder.run at herror
  cases hwrite : Direct.write codec t ⟨Output.empty, .start .encode o⟩ with
  | ok _ s =>
    have hcheck : check codec' t (.start .encode o) = .ok () s.folder := hechoes.ok hwrite
    rw [hwrite] at herror
    dsimp only at herror
    cases hfinish : s.folder.finish with
    | ok digest => rw [hfinish] at herror; cases herror
    | error e' =>
      rw [hfinish] at herror
      cases herror
      rw [encodeTree_of_check hcheck, hfinish, finish_reportedBy hfinish]
      rfl
  | error e' s =>
    obtain ⟨f, hcheck⟩ : ∃ f, check codec' t (.start .encode o) = .error (e'.reportedBy codec') f :=
      hechoes.error hwrite
    rw [hwrite] at herror
    cases herror
    exact encodeTree_of_check_error hcheck

/-- **On a tree without repeated keys the encoders give the same encoding or the same error.** -/
theorem encodeTree_eq (h : Distinct t) :
    encodeTree codec' t o = (encodeStream codec t o).mapError (Error.reportedBy codec') := by
  cases hstream : encodeStream codec t o with
  | ok e =>
    obtain ⟨⟨ht, hcount⟩, hdepth, rfl⟩ := encodeStream_eq_ok_iff.mp hstream
    exact encodeTree_eq_ok_iff.mpr ⟨⟨ht, h, hcount⟩, hdepth, rfl⟩
  | error e => exact encodeTree_error h hstream

/-- A tree with a repeated key does not pass the check, whatever else is wrong with it. -/
theorem encodeTree_repeated (h : ¬ Distinct t) :
    ∃ e, encodeTree codec t o = .error e ∧
      ((∃ reason, e = .encode reason) ∨ e = .protocol .countOverflow ∧ ¬ t.Countable) := by
  cases hcheck : check codec t (.start .encode o) with
  | ok _ f => exact absurd (check_requires t hcheck).2.1 h
  | error e f =>
    refine ⟨e, encodeTree_of_check_error hcheck, ?_⟩
    rcases (check_performs t).error hcheck with ⟨what, rfl⟩ | ⟨f', hwalk⟩
    · exact .inl ⟨_, rfl⟩
    · -- the walk was stopped, and it says by what
      have hwalk : Folding.tree t (.start .encode o) = .error e f' := hwalk
      cases hstop : t.stop? o.depthLimit with
      | none =>
        obtain ⟨hcount, hdepth⟩ := Tree.stop?_eq_none_iff.mp hstop
        rw [Folding.tree_ok (Folder.start_admits hdepth) hcount] at hwalk
        cases hwalk
      | some stop =>
        obtain ⟨_, hstopped⟩ := Folding.tree_start_stop .encode hstop
        rw [hwalk] at hstopped
        cases hstopped
        cases stop with
        | deep => exact .inl ⟨_, rfl⟩
        | overfull => exact .inr ⟨rfl, Tree.not_countable_of_overfull hstop⟩

/-! ## At the top -/

/--
**The two JSON encoders agree.** On every tree without repeated keys they give the same octets
and the same digest, or the same error but for the name of the codec in it. A tree with a
repeated key the checking encoder refuses with an error of encoding, but for the one error that
concerns no format: that a container has more entries than there are numbers for.
-/
theorem json_encoders_agree (t : Tree) (o : FoldOptions) :
    (Distinct t → dom.encode t o = (stream.encode t o).mapError (Error.reportedBy dom.name)) ∧
      (¬ Distinct t → ∃ e, dom.encode t o = .error e ∧
        ((∃ reason, e = .encode reason) ∨ e = .protocol .countOverflow ∧ ¬ t.Countable)) :=
  ⟨encodeTree_eq, encodeTree_repeated⟩

/-- Of an infinite double and a key that is not UTF-8 after it, both name the double; and a key
that occurs twice is an error of encoding. -/
theorem json_encoders_agree_infinite :
    (dom.encode (.map [([0x61], .double 0x7FF0000000000000), ([0xFF], .null)]) {} =
        .error (.encode (.unrepresentable "json-dom" (.nonFinite 0x7FF0000000000000))) ∧
      stream.encode (.map [([0x61], .double 0x7FF0000000000000), ([0xFF], .null)]) {} =
        .error (.encode (.unrepresentable "json-stream" (.nonFinite 0x7FF0000000000000)))) ∧
    ∃ reason, dom.encode (.map [([0x61], .null), ([0x61], .null)]) {} =
      .error (.encode reason) := by
  have hdistinct : Distinct (.map [([0x61], .double 0x7FF0000000000000), ([0xFF], .null)]) :=
    distinct_map.mpr ⟨by decide, by simp [Distinct, Tree.All, DistinctAt]⟩
  have hstream : stream.encode (.map [([0x61], .double 0x7FF0000000000000), ([0xFF], .null)]) {} =
      .error (.encode (.unrepresentable "json-stream" (.nonFinite 0x7FF0000000000000))) := rfl
  have hrepeated : ¬ Distinct (.map [([0x61], .null), ([0x61], .null)]) :=
    fun h => absurd (distinct_map.mp h).1 (by decide)
  have hcountable : Tree.Countable (.map [([0x61], .null), ([0x61], .null)]) :=
    Tree.countable_map.mpr ⟨by decide, by simp [Tree.Countable, Tree.All, Tree.entries]⟩
  refine ⟨⟨?_, hstream⟩, ?_⟩
  · rw [(json_encoders_agree _ {}).1 hdistinct, hstream]
    rfl
  · obtain ⟨e, he, ⟨reason, rfl⟩ | ⟨-, hnot⟩⟩ := (json_encoders_agree _ {}).2 hrepeated
    · exact ⟨reason, he⟩
    · exact absurd hcountable hnot

/-- A list fails the check with what its first entry fails it with. -/
theorem encodeTree_head {item : Tree} {items : List Tree} {e : Error}
    (h : ∀ f, ∃ f', check codec item f = .error e f')
    (hlen : (item :: items).length < 0x100000000) (hopen : 1 ≤ o.depthLimit) :
    encodeTree codec (.list (item :: items)) o = .error e := by
  obtain ⟨f, hcheck⟩ : ∃ f, check codec (.list (item :: items)) (.start .encode o) = .error e f := by
    rw [check, Steps.bind_ok (Folder.count_ok hlen),
      Steps.bind_ok (Folder.beginList_tree (Folder.start_admits hopen))]
    exact Steps.bind_fails (Steps.bind_fails (h _))
  exact encodeTree_of_check_error hcheck

/-- In a list whose second entry has a repeated key, the first has more entries than there are numbers
for. It is come upon before the key, and that is no error of encoding. -/
theorem repeated_key_after_long_list :
    ¬ Distinct (.list [.crowd .null, .map [([0x61], .null), ([0x61], .null)]]) ∧
      dom.encode (.list [.crowd .null, .map [([0x61], .null), ([0x61], .null)]]) {} =
        .error (.protocol .countOverflow) := by
  have hcrowd : ∀ f, ∃ f', check dom.name (.crowd .null) f = .error (.protocol .countOverflow) f' := by
    intro f
    rw [Tree.crowd, check, List.length_replicate]
    exact Steps.bind_fails ⟨f, Folding.count_overflows (by decide)⟩
  have hlen : [Tree.crowd .null, .map [([0x61], .null), ([0x61], .null)]].length < 0x100000000 := by
    rw [List.length_cons, List.length_singleton]
    decide
  have hopen : 1 ≤ ({} : FoldOptions).depthLimit := by decide
  have hdom : dom.encode = encodeTree dom.name := rfl
  refine ⟨fun h => ?_, by rw [hdom]; exact encodeTree_head hcrowd hlen hopen⟩
  have hmap := (List.forall_mem_cons.mp (List.forall_mem_cons.mp (distinct_list.mp h)).2).1
  exact absurd (distinct_map.mp hmap).1 (by decide)

end TreeDigest.Json
