import Mathlib.Tactic.Common
import Tracefold.Library.Chain
import Tracefold.Library.Frames

/-! Records laid end to end, each behind its length and in front of a stamp that commits to all the
records up to it. -/

namespace Tracefold.Library.Sealed

open Frames (Fits Flow)

section Frame

variable (cap width : ℕ)

/-- The whole record at the front of some bytes, the stamp behind it, and what follows both. -/
def frame? (rest : List UInt8) : Option (List UInt8 × List UInt8 × List UInt8) :=
  match Frames.frame? cap rest with
  | none => none
  | some (payload, tail) =>
    if tail.length < width then none else some (payload, tail.take width, tail.drop width)

variable {cap width} {payload stamp : List UInt8}

theorem frame?_eq_some {rest tail : List UInt8} (h : frame? cap width rest = some (payload, stamp, tail)) :
    rest = Frames.frame payload ++ stamp ++ tail ∧ Fits cap payload ∧ stamp.length = width := by
  unfold frame? at h
  split at h
  next => cases h
  next found behind hframe =>
    split at h
    next => cases h
    next hwidth =>
      cases h
      obtain ⟨rfl, hfits⟩ := Frames.frame?_eq_some hframe
      refine ⟨?_, hfits, ?_⟩
      · rw [List.append_assoc, List.take_append_drop]
      · rw [List.length_take]
        omega

theorem frame?_append (hcap : cap < 2 ^ 32) (h : Fits cap payload) (hstamp : stamp.length = width)
    (tail : List UInt8) :
    frame? cap width (Frames.frame payload ++ stamp ++ tail) = some (payload, stamp, tail) := by
  have hwidth : ¬ (stamp ++ tail).length < width := by
    rw [List.length_append]
    omega
  rw [frame?, List.append_assoc, Frames.frame?_append hcap h]
  dsimp only
  rw [if_neg hwidth, List.take_left' hstamp, List.drop_left' hstamp]

theorem frame?_cut (hcap : cap < 2 ^ 32) (h : Fits cap payload) (hstamp : stamp.length = width) {n : ℕ}
    (hn : n < (Frames.frame payload ++ stamp).length) :
    frame? cap width ((Frames.frame payload ++ stamp).take n) = none := by
  rw [List.length_append] at hn
  by_cases hwhole : n < (Frames.frame payload).length
  · rw [List.take_append_of_le_length hwhole.le, frame?, Frames.frame?_cut hcap h hwhole]
  · obtain ⟨m, rfl⟩ := Nat.exists_eq_add_of_le (Nat.le_of_not_lt hwhole)
    have hshort : (stamp.take m).length < width := by
      rw [List.length_take]
      omega
    rw [List.take_length_add_append, frame?, Frames.frame?_append hcap h]
    dsimp only
    rw [if_pos hshort]

theorem frame?_nil : frame? cap width [] = none := rfl

end Frame

section Laid

variable {δ : Type} (link : δ → List UInt8 → δ) (stamp : δ → List UInt8)

/-- Records, each with the stamp of the link that it adds to the chain. -/
def laid : δ → List (List UInt8) → List UInt8
  | _, [] => []
  | start, payload :: payloads =>
    Frames.frame payload ++ stamp (link start payload) ++ laid (link start payload) payloads

theorem laid_nil (start : δ) : laid link stamp start [] = [] := rfl

theorem laid_cons (start : δ) (payload : List UInt8) (payloads : List (List UInt8)) :
    laid link stamp start (payload :: payloads) =
      Frames.frame payload ++ stamp (link start payload) ++
        laid link stamp (link start payload) payloads := rfl

theorem length_laid_cons (start : δ) (payload : List UInt8) (payloads : List (List UInt8)) :
    (laid link stamp start (payload :: payloads)).length =
      (Frames.frame payload ++ stamp (link start payload)).length +
        (laid link stamp (link start payload) payloads).length := List.length_append

theorem laid_append (start : δ) (payloads more : List (List UInt8)) :
    laid link stamp start (payloads ++ more) =
      laid link stamp start payloads ++ laid link stamp (Chain.head link start payloads) more := by
  induction payloads generalizing start with
  | nil => rfl
  | cons payload payloads ih =>
    rw [List.cons_append, laid_cons, ih, laid_cons, ← List.append_assoc]
    rfl

theorem laid_concat (start : δ) (payloads : List (List UInt8)) (payload : List UInt8) :
    laid link stamp start (payloads ++ [payload]) =
      laid link stamp start payloads ++
        (Frames.frame payload ++ stamp (link (Chain.head link start payloads) payload)) := by
  rw [laid_append, laid_cons, laid_nil, List.append_nil]

variable {link stamp} {cap width : ℕ}

/-- A cut through the records leaves those that end before it, and no whole one after them. -/
theorem laid_cut (hcap : cap < 2 ^ 32) (hstamp : ∀ state, (stamp state).length = width) {start : δ}
    {payloads : List (List UInt8)} (hfits : ∀ payload ∈ payloads, Fits cap payload) {n : ℕ}
    (hn : n ≤ (laid link stamp start payloads).length) :
    ∃ k rest, k ≤ payloads.length ∧
      (laid link stamp start payloads).take n = laid link stamp start (payloads.take k) ++ rest ∧
      frame? cap width rest = none ∧
      ∀ i < payloads.length, i < k ↔ (laid link stamp start (payloads.take (i + 1))).length ≤ n := by
  induction payloads generalizing start n with
  | nil => exact ⟨0, [], le_rfl, by simp [laid], rfl, by simp⟩
  | cons payload payloads ih =>
    by_cases hcut : n < (Frames.frame payload ++ stamp (link start payload)).length
    · refine ⟨0, (Frames.frame payload ++ stamp (link start payload)).take n, Nat.zero_le _, ?_, ?_,
        ?_⟩
      · rw [laid_cons, List.take_append_of_le_length hcut.le]
        rfl
      · exact frame?_cut hcap (hfits payload List.mem_cons_self) (hstamp _) hcut
      · intro i _
        rw [List.take_succ_cons, length_laid_cons]
        omega
    · obtain ⟨m, rfl⟩ := Nat.exists_eq_add_of_le (Nat.le_of_not_lt hcut)
      have hm : m ≤ (laid link stamp (link start payload) payloads).length := by
        rw [length_laid_cons] at hn
        omega
      obtain ⟨k, rest, hk, htake, hrest, hends⟩ :=
        @ih (link start payload) (fun p hp => hfits p (List.mem_cons_of_mem _ hp)) m hm
      refine ⟨k + 1, rest, by simpa using hk, ?_, hrest, ?_⟩
      · rw [laid_cons, List.take_length_add_append, htake, List.take_succ_cons, laid_cons,
          ← List.append_assoc]
      · intro i hi
        rw [List.take_succ_cons, length_laid_cons, Nat.add_le_add_iff_left]
        cases i with
        | zero => simp [laid]
        | succ i =>
          rw [Nat.add_lt_add_iff_right]
          exact hends i (by simpa using hi)

theorem laid_isPrefix {start : δ} {payloads all : List (List UInt8)} (h : payloads <+: all) :
    laid link stamp start payloads <+: laid link stamp start all := by
  obtain ⟨more, rfl⟩ := h
  rw [laid_append]
  exact List.prefix_append ..

end Laid

section Walk

variable (cap width : ℕ) {σ : Type} (step : σ → List UInt8 → List UInt8 → Flow σ)

/-- The walk over a record and its stamp after another. Each of them takes some bytes, so the length
of the bytes is fuel enough. -/
def walk : ℕ → σ → List UInt8 → σ
  | 0, state, _ => state
  | fuel + 1, state, rest =>
    match frame? cap width rest with
    | none => state
    | some (payload, stamp, tail) =>
      match step state payload stamp with
      | .stop state => state
      | .next state => walk fuel state tail

/-- The states that a walk goes through. -/
def trail : ℕ → σ → List UInt8 → List σ
  | 0, state, _ => [state]
  | fuel + 1, state, rest =>
    match frame? cap width rest with
    | none => [state]
    | some (payload, stamp, tail) =>
      match step state payload stamp with
      | .stop _ => [state]
      | .next next => state :: trail fuel next tail

/-- Bytes that are walked over whole, from one state to another. -/
inductive Passes : σ → List UInt8 → σ → Prop where
  | nil (state : σ) : Passes state [] state
  | cons {state next last : σ} {payload stamp front : List UInt8} (fits : Fits cap payload)
      (width : stamp.length = width) (step : step state payload stamp = .next next)
      (passes : Passes next front last) :
      Passes state (Frames.frame payload ++ stamp ++ front) last

variable {cap width step} {state : σ} {payload stamp rest tail : List UInt8}

theorem walk_done {fuel : ℕ} (h : frame? cap width rest = none) :
    walk cap width step fuel state rest = state := by
  cases fuel with
  | zero => rfl
  | succ fuel => rw [walk, h]

theorem walk_stop {fuel : ℕ} {last : σ} (h : frame? cap width rest = some (payload, stamp, tail))
    (hstep : step state payload stamp = .stop last) :
    walk cap width step (fuel + 1) state rest = last := by
  rw [walk, h]
  dsimp only
  rw [hstep]

theorem walk_next {fuel : ℕ} {next : σ} (h : frame? cap width rest = some (payload, stamp, tail))
    (hstep : step state payload stamp = .next next) :
    walk cap width step (fuel + 1) state rest = walk cap width step fuel next tail := by
  rw [walk, h]
  dsimp only
  rw [hstep]

theorem length_lt_of_frame? (h : frame? cap width rest = some (payload, stamp, tail)) :
    tail.length < rest.length := by
  obtain ⟨rfl, ⟨hpos, -⟩, -⟩ := frame?_eq_some h
  rw [List.length_append, List.length_append, Frames.length_frame]
  omega

theorem walk_enough {fuel fuel' : ℕ} (h : rest.length ≤ fuel) (h' : rest.length ≤ fuel') :
    walk cap width step fuel state rest = walk cap width step fuel' state rest := by
  induction fuel generalizing fuel' state rest with
  | zero =>
    obtain rfl := List.length_eq_zero_iff.mp (Nat.le_zero.mp h)
    rw [walk_done frame?_nil, walk_done frame?_nil]
  | succ fuel ih =>
    cases hframe : frame? cap width rest with
    | none => rw [walk_done hframe, walk_done hframe]
    | some frame =>
      obtain ⟨payload, stamp, tail⟩ := frame
      have hlt := length_lt_of_frame? hframe
      cases fuel' with
      | zero => omega
      | succ fuel' =>
        cases hstep : step state payload stamp with
        | stop last => rw [walk_stop hframe hstep, walk_stop hframe hstep]
        | next next =>
          rw [walk_next hframe hstep, walk_next hframe hstep]
          exact ih (by omega) (by omega)

/-- A walk over more bytes goes on from where the walk over the first of them has ended. -/
theorem walk_passes (hcap : cap < 2 ^ 32) {front : List UInt8} {last : σ}
    (h : Passes cap width step state front last) {fuel : ℕ} (hfuel : (front ++ rest).length ≤ fuel) :
    ∃ fuel', rest.length ≤ fuel' ∧
      walk cap width step fuel state (front ++ rest) = walk cap width step fuel' last rest := by
  induction h generalizing fuel with
  | nil state => exact ⟨fuel, hfuel, rfl⟩
  | @cons state next last payload stamp front hfits hwidth hstep _ ih =>
    have hframe := frame?_append hcap hfits hwidth (front ++ rest)
    rw [← List.append_assoc] at hframe
    have hlt := length_lt_of_frame? hframe
    cases fuel with
    | zero => omega
    | succ fuel =>
      obtain ⟨fuel', hfuel', hwalk⟩ := ih (Nat.le_of_lt_succ (Nat.lt_of_lt_of_le hlt hfuel))
      exact ⟨fuel', hfuel', (walk_next hframe hstep).trans hwalk⟩

theorem walk_of_passes (hcap : cap < 2 ^ 32) {front : List UInt8} {last : σ}
    (h : Passes cap width step state front last) {fuel : ℕ} (hfuel : front.length ≤ fuel) :
    walk cap width step fuel state front = last := by
  rw [← List.append_nil front] at hfuel ⊢
  obtain ⟨fuel', -, hwalk⟩ := walk_passes hcap h hfuel
  rw [hwalk, walk_done frame?_nil]

theorem passes_of_mem_trail {fuel : ℕ} {last : σ} (h : last ∈ trail cap width step fuel state rest) :
    ∃ front behind, rest = front ++ behind ∧ Passes cap width step state front last := by
  induction fuel generalizing state rest with
  | zero =>
    obtain rfl := List.mem_singleton.mp h
    exact ⟨[], rest, rfl, .nil last⟩
  | succ fuel ih =>
    unfold trail at h
    split at h
    next =>
      obtain rfl := List.mem_singleton.mp h
      exact ⟨[], rest, rfl, .nil last⟩
    next payload stamp tail hframe =>
      split at h
      next =>
        obtain rfl := List.mem_singleton.mp h
        exact ⟨[], rest, rfl, .nil last⟩
      next next hstep =>
        rcases List.mem_cons.mp h with rfl | h
        · exact ⟨[], rest, rfl, .nil last⟩
        · obtain ⟨front, behind, rfl, hpasses⟩ := ih h
          obtain ⟨rfl, hfits, hwidth⟩ := frame?_eq_some hframe
          exact ⟨_, behind, (List.append_assoc ..).symm, .cons hfits hwidth hstep hpasses⟩

theorem walk_ends (fuel : ℕ) (state : σ) (rest : List UInt8) :
    ∃ front behind last, rest = front ++ behind ∧ Passes cap width step state front last ∧
      (walk cap width step fuel state rest = last ∨
        ∃ payload stamp, step last payload stamp = .stop (walk cap width step fuel state rest)) := by
  induction fuel generalizing state rest with
  | zero => exact ⟨[], rest, state, rfl, .nil state, .inl rfl⟩
  | succ fuel ih =>
    cases hframe : frame? cap width rest with
    | none => exact ⟨[], rest, state, rfl, .nil state, .inl (walk_done hframe)⟩
    | some frame =>
      obtain ⟨payload, stamp, tail⟩ := frame
      cases hstep : step state payload stamp with
      | stop last =>
        rw [walk_stop hframe hstep]
        exact ⟨[], rest, state, rfl, .nil state, .inr ⟨payload, stamp, hstep⟩⟩
      | next next =>
        obtain ⟨front, behind, last, rfl, hpasses, hend⟩ := ih next tail
        obtain ⟨rfl, hfits, hwidth⟩ := frame?_eq_some hframe
        rw [walk_next hframe hstep]
        exact ⟨_, behind, last, (List.append_assoc ..).symm, .cons hfits hwidth hstep hpasses, hend⟩

/-- States that are alike are walked alike, when each of their steps is. -/
theorem walk_map (f : σ → σ)
    (hstep : ∀ state payload stamp, step (f state) payload stamp = (step state payload stamp).map f)
    (fuel : ℕ) (state : σ) (rest : List UInt8) :
    walk cap width step fuel (f state) rest = f (walk cap width step fuel state rest) := by
  induction fuel generalizing state rest with
  | zero => rfl
  | succ fuel ih =>
    cases hframe : frame? cap width rest with
    | none => rw [walk_done hframe, walk_done hframe]
    | some frame =>
      obtain ⟨payload, stamp, tail⟩ := frame
      have hf := hstep state payload stamp
      cases hnext : step state payload stamp with
      | stop last =>
        rw [hnext] at hf
        rw [walk_stop hframe hf, walk_stop hframe hnext]
      | next next =>
        rw [hnext] at hf
        rw [walk_next hframe hf, walk_next hframe hnext, ih]

end Walk

end Tracefold.Library.Sealed
