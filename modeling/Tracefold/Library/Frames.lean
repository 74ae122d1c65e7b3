import Mathlib.Tactic.Common
import Mathlib.Algebra.Ring.Nat
import Mathlib.Data.List.Infix

/-! Records laid end to end, each behind its length in four bytes; and a walk over them that stops
at the first one that is not whole or not accepted. -/

namespace Tracefold.Library.Frames

def lengthBytes : ℕ := 4

/-- `u32::from_be_bytes`. -/
def u32FromBeBytes : List UInt8 → ℕ
  | [a, b, c, d] => ((a.toNat * 256 + b.toNat) * 256 + c.toNat) * 256 + d.toNat
  | _ => 0

/-- `u32::to_be_bytes`. -/
def u32ToBeBytes (n : ℕ) : List UInt8 :=
  [.ofNat (n / 256 / 256 / 256), .ofNat (n / 256 / 256), .ofNat (n / 256), .ofNat n]

theorem length_u32ToBeBytes (n : ℕ) : (u32ToBeBytes n).length = lengthBytes := rfl

theorem u32FromBeBytes_injective {a b : List UInt8} (ha : a.length = lengthBytes)
    (hb : b.length = lengthBytes) (h : u32FromBeBytes a = u32FromBeBytes b) : a = b := by
  match a, b, ha, hb with
  | [a₀, a₁, a₂, a₃], [b₀, b₁, b₂, b₃], _, _ =>
    simp only [u32FromBeBytes] at h
    have ha₁ := a₁.toNat_lt
    have ha₂ := a₂.toNat_lt
    have ha₃ := a₃.toNat_lt
    have hb₁ := b₁.toNat_lt
    have hb₂ := b₂.toNat_lt
    have hb₃ := b₃.toNat_lt
    have h₀ : a₀.toNat = b₀.toNat := by omega
    have h₁ : a₁.toNat = b₁.toNat := by omega
    have h₂ : a₂.toNat = b₂.toNat := by omega
    have h₃ : a₃.toNat = b₃.toNat := by omega
    rw [UInt8.toNat_inj.mp h₀, UInt8.toNat_inj.mp h₁, UInt8.toNat_inj.mp h₂, UInt8.toNat_inj.mp h₃]

theorem u32FromBeBytes_u32ToBeBytes {n : ℕ} (h : n < 2 ^ 32) :
    u32FromBeBytes (u32ToBeBytes n) = n := by
  simp only [u32FromBeBytes, u32ToBeBytes, UInt8.toNat_ofNat']
  omega

theorem u32ToBeBytes_u32FromBeBytes {header : List UInt8} (h : header.length = lengthBytes) :
    u32ToBeBytes (u32FromBeBytes header) = header := by
  have hlt : u32FromBeBytes header < 2 ^ 32 := by
    match header, h with
    | [a, b, c, d], _ =>
      have := a.toNat_lt
      have := b.toNat_lt
      have := c.toNat_lt
      have := d.toNat_lt
      simp only [u32FromBeBytes]
      omega
  exact u32FromBeBytes_injective rfl h (u32FromBeBytes_u32ToBeBytes hlt)

/-- A record behind its length. -/
def frame (payload : List UInt8) : List UInt8 := u32ToBeBytes payload.length ++ payload

theorem length_frame (payload : List UInt8) : (frame payload).length = lengthBytes + payload.length := by
  rw [frame, List.length_append]
  rfl

def frames (payloads : List (List UInt8)) : List UInt8 := payloads.flatMap frame

theorem frames_cons (payload : List UInt8) (payloads : List (List UInt8)) :
    frames (payload :: payloads) = frame payload ++ frames payloads := rfl

theorem frames_concat (payloads : List (List UInt8)) (payload : List UInt8) :
    frames (payloads ++ [payload]) = frames payloads ++ frame payload := by
  rw [frames, List.flatMap_append, List.flatMap_singleton]
  rfl

section Walk

variable (cap : ℕ)

/-- The whole record at the front of some bytes, and what follows it. -/
def frame? (rest : List UInt8) : Option (List UInt8 × List UInt8) :=
  if rest.length < lengthBytes then none
  else
    let length := u32FromBeBytes (rest.take lengthBytes)
    if length = 0 ∨ cap < length then none
    else if rest.length < lengthBytes + length then none
    else some ((rest.drop lengthBytes).take length, rest.drop (lengthBytes + length))

/-- A record that a walk takes for one: not empty, and not over the cap. -/
def Fits (payload : List UInt8) : Prop := 0 < payload.length ∧ payload.length ≤ cap

variable {cap}

theorem frame?_eq_some {rest payload tail : List UInt8} (h : frame? cap rest = some (payload, tail)) :
    rest = frame payload ++ tail ∧ Fits cap payload := by
  unfold frame? at h
  dsimp only at h
  split_ifs at h with hheader hlength hwhole
  cases h
  set length := u32FromBeBytes (rest.take lengthBytes) with hlen
  have htake : (rest.take lengthBytes).length = lengthBytes := by
    rw [List.length_take]
    omega
  have hpayload : ((rest.drop lengthBytes).take length).length = length := by
    rw [List.length_take, List.length_drop]
    omega
  constructor
  · rw [frame, hpayload, hlen, u32ToBeBytes_u32FromBeBytes htake, ← hlen, ← List.drop_drop,
      List.append_assoc, List.take_append_drop, List.take_append_drop]
  · rw [Fits, hpayload]
    omega

theorem frame?_append (hcap : cap < 2 ^ 32) {payload : List UInt8} (h : Fits cap payload)
    (tail : List UInt8) : frame? cap (frame payload ++ tail) = some (payload, tail) := by
  have hheader := length_u32ToBeBytes payload.length
  have htake : (frame payload ++ tail).take lengthBytes = u32ToBeBytes payload.length := by
    rw [frame, List.append_assoc, List.take_left' hheader]
  have hdrop : (frame payload ++ tail).drop lengthBytes = payload ++ tail := by
    rw [frame, List.append_assoc, List.drop_left' hheader]
  have hlength : (frame payload ++ tail).length = lengthBytes + payload.length + tail.length := by
    rw [List.length_append, length_frame]
  obtain ⟨hpos, hle⟩ := h
  rw [frame?, hlength, htake, u32FromBeBytes_u32ToBeBytes (by omega), if_neg (by omega)]
  dsimp only
  rw [if_neg (by omega), if_neg (by omega), hdrop, List.take_left, ← List.drop_drop, hdrop,
    List.drop_left]

theorem frame?_cut (hcap : cap < 2 ^ 32) {payload : List UInt8} (h : Fits cap payload) {n : ℕ}
    (hn : n < (frame payload).length) : frame? cap ((frame payload).take n) = none := by
  have hlength : ((frame payload).take n).length = n := by
    rw [List.length_take]
    omega
  obtain ⟨hpos, hle⟩ := h
  rw [length_frame] at hn
  rw [frame?, hlength]
  split_ifs with hheader
  · rfl
  · have htake : ((frame payload).take n).take lengthBytes = u32ToBeBytes payload.length := by
      rw [List.take_take, Nat.min_eq_left (by omega), frame,
        List.take_left' (length_u32ToBeBytes payload.length)]
    rw [htake, u32FromBeBytes_u32ToBeBytes (by omega)]
    dsimp only
    rw [if_neg (by omega), if_pos (by omega)]

/-- A cut through records laid end to end leaves those that end before it, and no whole one after
them. -/
theorem frames_cut (hcap : cap < 2 ^ 32) {payloads : List (List UInt8)}
    (hfits : ∀ payload ∈ payloads, Fits cap payload) {n : ℕ} (hn : n ≤ (frames payloads).length) :
    ∃ k rest, k ≤ payloads.length ∧ (frames payloads).take n = frames (payloads.take k) ++ rest ∧
      frame? cap rest = none ∧
      ∀ i < payloads.length, i < k ↔ (frames (payloads.take (i + 1))).length ≤ n := by
  induction payloads generalizing n with
  | nil => exact ⟨0, [], le_rfl, by simp [frames], rfl, by simp⟩
  | cons payload payloads ih =>
    by_cases hcut : n < (frame payload).length
    · refine ⟨0, (frame payload).take n, Nat.zero_le _, ?_, ?_, ?_⟩
      · rw [frames_cons, List.take_append_of_le_length hcut.le]
        rfl
      · exact frame?_cut hcap (hfits payload List.mem_cons_self) hcut
      · intro i _
        rw [List.take_succ_cons, frames_cons, List.length_append]
        omega
    · obtain ⟨m, rfl⟩ := Nat.exists_eq_add_of_le (Nat.le_of_not_lt hcut)
      rw [frames_cons, List.length_append] at hn
      obtain ⟨k, rest, hk, htake, hrest, hends⟩ :=
        @ih (fun p hp => hfits p (List.mem_cons_of_mem _ hp)) m (by omega)
      refine ⟨k + 1, rest, by simpa using hk, ?_, hrest, ?_⟩
      · rw [frames_cons, List.take_length_add_append, htake, List.take_succ_cons, frames_cons,
          List.append_assoc]
      · intro i hi
        rw [List.take_succ_cons, frames_cons, List.length_append, Nat.add_le_add_iff_left]
        cases i with
        | zero => simp [frames]
        | succ i =>
          rw [Nat.add_lt_add_iff_right]
          exact hends i (by simpa using hi)

/-- What is made of a record: the walk goes on, or it ends. -/
inductive Flow (σ : Type) where
  | next (state : σ)
  | stop (state : σ)

def Flow.map {σ τ : Type} (f : σ → τ) : Flow σ → Flow τ
  | .next state => .next (f state)
  | .stop state => .stop (f state)

variable (cap) {σ : Type} (step : σ → List UInt8 → Flow σ)

/-- The walk. Every record takes some bytes, so the length of them is fuel enough. -/
def walk : ℕ → σ → List UInt8 → σ
  | 0, state, _ => state
  | fuel + 1, state, rest =>
    match frame? cap rest with
    | none => state
    | some (payload, tail) =>
      match step state payload with
      | .stop state => state
      | .next state => walk fuel state tail

/-- Records that are accepted one after another. -/
inductive Runs : σ → List (List UInt8) → σ → Prop where
  | nil (state : σ) : Runs state [] state
  | cons {state next last : σ} {payload : List UInt8} {payloads : List (List UInt8)}
      (fits : Fits cap payload) (accepted : step state payload = .next next)
      (rest : Runs next payloads last) : Runs state (payload :: payloads) last

variable {cap step} {state next last : σ} {payload : List UInt8} {payloads : List (List UInt8)}

theorem Runs.concat (h : Runs cap step state payloads last) (fits : Fits cap payload)
    (accepted : step last payload = .next next) : Runs cap step state (payloads ++ [payload]) next := by
  induction h with
  | nil state => exact .cons fits accepted (.nil next)
  | cons hfits haccepted _ ih => exact .cons hfits haccepted (ih accepted)

theorem Runs.induction {motive : List (List UInt8) → σ → Prop} (nil : motive [] state)
    (concat : ∀ {payloads : List (List UInt8)} {mid next : σ} {payload : List UInt8},
      Runs cap step state payloads mid → motive payloads mid → Fits cap payload →
      step mid payload = .next next → motive (payloads ++ [payload]) next)
    (h : Runs cap step state payloads last) : motive payloads last := by
  have hall : ∀ {before after : List (List UInt8)} {mid last : σ}, Runs cap step state before mid →
      motive before mid → Runs cap step mid after last → motive (before ++ after) last := by
    intro before after mid last hbefore hmid hafter
    induction hafter generalizing before with
    | nil => rwa [List.append_nil]
    | @cons mid next last payload payloads hfits haccepted _ ih =>
      have hnext := ih (hbefore.concat hfits haccepted) (concat hbefore hmid hfits haccepted)
      rwa [List.append_assoc] at hnext
  exact hall (.nil state) nil h

theorem Runs.keeps {P : σ → Prop} (hstep : ∀ {state next : σ} {payload : List UInt8}, P state →
    step state payload = .next next → P next) (h : Runs cap step state payloads last)
    (hstate : P state) : P last := by
  induction h with
  | nil => exact hstate
  | cons _ haccepted _ ih => exact ih (hstep hstate haccepted)

theorem Runs.take (h : Runs cap step state payloads last) (k : ℕ) :
    ∃ mid, Runs cap step state (payloads.take k) mid ∧ Runs cap step mid (payloads.drop k) last := by
  induction h generalizing k with
  | nil state => exact ⟨state, by rw [List.take_nil]; exact .nil state,
      by rw [List.drop_nil]; exact .nil state⟩
  | @cons state next last payload payloads hfits haccepted hrest ih =>
    cases k with
    | zero => exact ⟨state, .nil state, .cons hfits haccepted hrest⟩
    | succ k =>
      obtain ⟨mid, hbefore, hafter⟩ := ih k
      exact ⟨mid, .cons hfits haccepted hbefore, hafter⟩

theorem Runs.fits (h : Runs cap step state payloads last) : ∀ payload ∈ payloads, Fits cap payload := by
  induction h with
  | nil => simp
  | cons hfits _ _ ih =>
    intro payload hmem
    rcases List.mem_cons.mp hmem with rfl | hmem
    · exact hfits
    · exact ih payload hmem

theorem walk_append (hcap : cap < 2 ^ 32) (h : Runs cap step state payloads last)
    {rest : List UInt8} {fuel : ℕ} (hfuel : (frames payloads ++ rest).length ≤ fuel) :
    ∃ fuel', rest.length ≤ fuel' ∧
      walk cap step fuel state (frames payloads ++ rest) = walk cap step fuel' last rest := by
  induction h generalizing fuel with
  | nil => exact ⟨fuel, hfuel, rfl⟩
  | @cons state next last payload payloads hfits haccepted _ ih =>
    rw [frames_cons, List.append_assoc, List.length_append, length_frame, lengthBytes] at hfuel
    cases fuel with
    | zero => omega
    | succ fuel =>
      obtain ⟨fuel', hfuel', hwalk⟩ := @ih fuel (by omega)
      refine ⟨fuel', hfuel', ?_⟩
      rw [frames_cons, List.append_assoc, walk, frame?_append hcap hfits, ← hwalk]
      dsimp only
      rw [haccepted]

theorem walk_done {fuel : ℕ} {rest : List UInt8} (h : frame? cap rest = none) :
    walk cap step fuel state rest = state := by
  cases fuel with
  | zero => rfl
  | succ fuel => rw [walk, h]

/-- Any bytes are accepted records, and then nothing whole or a record that stops the walk. -/
theorem walk_cases {fuel : ℕ} {bytes : List UInt8} (hfuel : bytes.length ≤ fuel) :
    ∃ payloads last rest, bytes = frames payloads ++ rest ∧ Runs cap step state payloads last ∧
      (frame? cap rest = none ∧ walk cap step fuel state bytes = last ∨
        ∃ payload tail, frame? cap rest = some (payload, tail) ∧
          step last payload = .stop (walk cap step fuel state bytes)) := by
  induction fuel generalizing state bytes with
  | zero =>
    have hnil : bytes = [] := List.length_eq_zero_iff.mp (Nat.le_zero.mp hfuel)
    subst hnil
    exact ⟨[], state, [], rfl, .nil state, .inl ⟨rfl, rfl⟩⟩
  | succ fuel ih =>
    cases hframe : frame? cap bytes with
    | none =>
      refine ⟨[], state, bytes, rfl, .nil state, .inl ⟨hframe, ?_⟩⟩
      rw [walk, hframe]
    | some found =>
      obtain ⟨payload, tail⟩ := found
      obtain ⟨hbytes, hfits⟩ := frame?_eq_some hframe
      cases hstep : step state payload with
      | stop last =>
        refine ⟨[], state, bytes, rfl, .nil state, .inr ⟨payload, tail, hframe, ?_⟩⟩
        rw [walk, hframe]
        dsimp only
        rw [hstep]
      | next next =>
        have htail : tail.length ≤ fuel := by
          rw [hbytes, List.length_append, length_frame, lengthBytes] at hfuel
          omega
        obtain ⟨payloads, last, rest, rfl, hruns, hend⟩ := @ih next tail htail
        have hwalk : walk cap step (fuel + 1) state bytes =
            walk cap step fuel next (frames payloads ++ rest) := by
          rw [walk, hframe]
          dsimp only
          rw [hstep]
        refine ⟨payload :: payloads, last, rest, ?_, .cons hfits hstep hruns, ?_⟩
        · rw [hbytes, frames_cons, List.append_assoc]
        · rw [hwalk]
          exact hend

end Walk

end Tracefold.Library.Frames
