import TreeDigest.Proofs.Input.Spends
import TreeDigest.Proofs.MessagePack.Persists

/-!
# What MessagePack elements take

An element takes an octet at least, its tag, and a pair two. So entries take what is claimed
for them, whichever reader goes over them.
-/

namespace TreeDigest.MessagePack

open Steps (Spends)

variable {limit levels : Nat}

theorem spends_tag : Spends Reader.left (fun _ => 1) tag := by
  refine ⟨fun {c tag c'} hok => ?_⟩
  obtain ⟨marker, body, -, htaken⟩ := tag_ok hok
  have hleft := Reader.left_of_takes htaken
  rw [List.length_cons] at hleft
  omega

theorem spends_key : Spends Reader.left (fun _ => 1) key := by
  refine .bind_first Reader.Persists.offset.spends fun offset =>
    .bind_last spends_tag fun tag => ?_
  cases tag with
  | text octets => exact .pure _
  | _ => exact .throw _ _

theorem spends_foldPair {value : Decoder Cursor Unit} (h : Spends Decoder.left (fun _ => 1) value) :
    Spends Decoder.left (fun _ => 2) (foldPair value) :=
  .bind (Decoder.spends_read spends_key) fun k => .bind_first (Decoder.spends_fold (.key k)) fun _ => h

theorem spends_readPair {value : Reader Tree} (h : Spends Reader.left (fun _ => 1) value) :
    Spends Reader.left (fun _ => 2) (readPair value) :=
  .bind spends_key fun _ => .bind_last h fun _ => .pure _

/-- Entries that are collected use up what is claimed for them. -/
theorem spends_collect {α : Type} {reader : Reader α} {least : Nat}
    (h : Spends Reader.left (fun _ => least) reader) (count : Nat) (g : List α → Tree) :
    Spends Reader.left (fun _ => count * least)
      (do return g (← Loop.collect reader count) : Reader Tree) :=
  .bind_last (h.collect count) fun _ => .pure _

theorem spends_read : Spends Reader.left (fun _ => 1) (read limit levels) := by
  induction levels with
  | zero =>
    rw [read]
    refine .bind_last spends_tag fun tag => ?_
    cases tag with
    | array count => exact .throw _ _
    | map count => exact .throw _ _
    | _ => exact .pure _
  | succ levels ih =>
    rw [read]
    refine .bind_last spends_tag fun tag => ?_
    cases tag with
    | array count =>
      exact .bind_first Reader.spends_need fun _ =>
        (spends_collect ih count.toNat .list).mono fun _ => Nat.zero_le _
    | map count =>
      exact .bind_first Reader.spends_need fun _ =>
        (spends_collect (spends_readPair ih) count.toNat .map).mono fun _ => Nat.zero_le _
    | _ => exact .pure _

/-- Entries that are handed over use up what is claimed for them. -/
theorem spends_times {step : Decoder Cursor Unit} {least : Nat}
    (h : Spends Decoder.left (fun _ => least) step) (count : Nat) (e : Event) :
    Spends Decoder.left (fun _ => count * least) (do Loop.times step count; Decoder.fold e) :=
  .bind_last (h.times count) fun _ => Decoder.spends_fold e

theorem spends_fold : Spends Decoder.left (fun _ => 1) (fold levels) := by
  induction levels with
  | zero =>
    rw [fold]
    refine .bind_last (Decoder.spends_read spends_tag) fun tag => ?_
    cases tag with
    | array count => exact .bind_last (Decoder.spends_fold _) fun _ => .pure _
    | map count => exact .bind_last (Decoder.spends_fold _) fun _ => .pure _
    | _ => exact Decoder.spends_fold _
  | succ levels ih =>
    have hclaim : ∀ n, Spends Decoder.left (fun _ => 0) (Decoder.read (Reader.need n)) := fun n =>
      Decoder.spends_read Reader.spends_need
    rw [fold]
    refine .bind_last (Decoder.spends_read spends_tag) fun tag => ?_
    cases tag with
    | array count =>
      exact .bind_last (Decoder.spends_fold _) fun _ => .bind_first (hclaim _) fun _ =>
        (spends_times ih count.toNat .endList).mono fun _ => Nat.zero_le _
    | map count =>
      exact .bind_last (Decoder.spends_fold _) fun _ => .bind_first (hclaim _) fun _ =>
        (spends_times (spends_foldPair ih) count.toNat .endMap).mono fun _ => Nat.zero_le _
    | _ => exact Decoder.spends_fold _

end TreeDigest.MessagePack
