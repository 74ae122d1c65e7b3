import Mathlib.Data.Finset.Card
import Mathlib.Data.Set.Finite.Basic
import Mathlib.Order.Lattice.Nat
import Mathlib.Tactic.Common

/-! A breadth-first search whose queue may hold a node many times: it is marked when it is taken
out, not when it is put in. -/

namespace Tracefold.Library.Search

variable {α : Type}

/-- What has been found, in order, what is marked, and what is still to be looked at. -/
structure State (α : Type) where
  out : List α
  seen : List α
  queue : List α

variable (next : α → List α)

def step [DecidableEq α] (s : State α) : Option (State α) :=
  match s.queue with
  | [] => none
  | x :: queue =>
    if x ∈ s.seen then some { s with queue }
    else some ⟨s.out ++ [x], x :: s.seen, queue ++ next x⟩

/-- The loop, for as many turns as there is fuel. -/
def run [DecidableEq α] : ℕ → State α → Option (List α)
  | 0, _ => none
  | fuel + 1, s =>
    match step next s with
    | none => some s.out
    | some s' => run fuel s'

/-- From `start` a node is reached over that many edges, one or more. -/
inductive Walk (start : α) : ℕ → α → Prop where
  | first {y : α} : y ∈ next start → Walk start 1 y
  | step {n : ℕ} {x y : α} : Walk start n x → y ∈ next x → Walk start (n + 1) y

open Classical in
/-- The length of the shortest walk to a node. -/
noncomputable def distance (start y : α) : ℕ := sInf {n | Walk next start n y}

variable {next} {start x y : α} {n : ℕ}

theorem distance_le (h : Walk next start n y) : distance next start y ≤ n := Nat.sInf_le h

theorem walk_distance (h : Walk next start n y) : Walk next start (distance next start y) y :=
  Nat.sInf_mem (s := {n | Walk next start n y}) ⟨n, h⟩

/-- The nodes of the queue stand there with the length of a walk to each, in order and no two more
than one apart; and every node that is an edge away from a marked one is marked or waits there. -/
structure Levelled (next : α → List α) (start : α) (s : State α) (queue : List (α × ℕ)) : Prop where
  holds : queue.map Prod.fst = s.queue
  seen : ∀ x, x ∈ s.seen ↔ x ∈ s.out
  nodup : s.out.Nodup
  walks : ∀ e ∈ queue, Walk next start e.2 e.1
  sorted : queue.Pairwise fun e e' => e.2 ≤ e'.2
  narrow : ∀ e ∈ queue, ∀ e' ∈ queue, e'.2 ≤ e.2 + 1
  reached : ∀ x ∈ s.out, ∃ n, Walk next start n x
  nearer : ∀ x ∈ s.out, ∀ e ∈ queue, distance next start x ≤ e.2
  ordered : s.out.Pairwise fun x y => distance next start x ≤ distance next start y
  first : ∀ y ∈ next start, y ∈ s.out ∨ (y, 1) ∈ queue
  closed : ∀ x ∈ s.out, ∀ y ∈ next x, y ∈ s.out ∨ ∃ e ∈ queue, e.1 = y ∧
    e.2 ≤ distance next start x + 1

variable {s s' : State α} {queue : List (α × ℕ)}

theorem levelled_start : Levelled next start ⟨[], [], next start⟩ ((next start).map (·, 1)) where
  holds := by
    rw [List.map_map]
    exact List.map_id _
  seen _ := Iff.rfl
  nodup := List.nodup_nil
  walks := by
    intro e he
    obtain ⟨y, hy, rfl⟩ := List.mem_map.mp he
    exact .first hy
  sorted := by
    rw [List.pairwise_map]
    exact List.pairwise_of_forall fun _ _ => le_refl 1
  narrow := by
    intro e he e' he'
    obtain ⟨_, _, rfl⟩ := List.mem_map.mp he
    obtain ⟨_, _, rfl⟩ := List.mem_map.mp he'
    exact Nat.le_succ 1
  reached := nofun
  nearer := nofun
  ordered := List.Pairwise.nil
  first y hy := .inr (List.mem_map_of_mem hy)
  closed := nofun

theorem Levelled.frontier (h : Levelled next start s queue) (hwalk : Walk next start n y) :
    y ∈ s.out ∨ ∃ e ∈ queue, e.2 ≤ n := by
  induction hwalk with
  | first hy =>
    rcases h.first _ hy with hout | hwait
    · exact .inl hout
    · exact .inr ⟨_, hwait, le_refl 1⟩
  | step hwalk hy ih =>
    rcases ih with hout | ⟨e, he, hle⟩
    · rcases h.closed _ hout _ hy with hdone | ⟨e, he, _, hle⟩
      · exact .inl hdone
      · have hshort := distance_le hwalk
        exact .inr ⟨e, he, by omega⟩
    · exact .inr ⟨e, he, by omega⟩

/-- A node that is taken out for the first time was put in at its distance. -/
theorem Levelled.label_eq {e : α × ℕ} (h : Levelled next start s (e :: queue))
    (hfresh : e.1 ∉ s.out) : distance next start e.1 = e.2 := by
  have hwalk := h.walks e List.mem_cons_self
  apply Nat.le_antisymm (distance_le hwalk)
  rcases h.frontier (walk_distance hwalk) with hout | ⟨e', he', hle⟩
  · exact absurd hout hfresh
  · rcases List.mem_cons.mp he' with rfl | hrest
    · exact hle
    · exact (List.rel_of_pairwise_cons h.sorted hrest).trans hle

theorem Levelled.skip {e : α × ℕ} (h : Levelled next start s (e :: queue)) (hseen : e.1 ∈ s.out) :
    Levelled next start { s with queue := queue.map Prod.fst } queue where
  holds := rfl
  seen := h.seen
  nodup := h.nodup
  walks e' he' := h.walks e' (List.mem_cons_of_mem _ he')
  sorted := h.sorted.of_cons
  narrow e₁ h₁ e₂ h₂ := h.narrow e₁ (List.mem_cons_of_mem _ h₁) e₂ (List.mem_cons_of_mem _ h₂)
  reached := h.reached
  nearer x hx e' he' := h.nearer x hx e' (List.mem_cons_of_mem _ he')
  ordered := h.ordered
  first := by
    intro y hy
    rcases h.first y hy with hout | hwait
    · exact .inl hout
    · rcases List.mem_cons.mp hwait with rfl | hrest
      · exact .inl hseen
      · exact .inr hrest
  closed := by
    intro x hx y hy
    rcases h.closed x hx y hy with hout | ⟨e', he', rfl, hle⟩
    · exact .inl hout
    · rcases List.mem_cons.mp he' with rfl | hrest
      · exact .inl hseen
      · exact .inr ⟨e', hrest, rfl, hle⟩

theorem Levelled.visit {e : α × ℕ} (h : Levelled next start s (e :: queue)) (hfresh : e.1 ∉ s.out) :
    Levelled next start
      ⟨s.out ++ [e.1], e.1 :: s.seen, queue.map Prod.fst ++ next e.1⟩
      (queue ++ (next e.1).map (·, e.2 + 1)) := by
  have hlabel := h.label_eq hfresh
  have hwalk := h.walks e List.mem_cons_self
  have hleast : ∀ e' ∈ queue, e.2 ≤ e'.2 ∧ e'.2 ≤ e.2 + 1 := by
    intro e' he'
    exact ⟨List.rel_of_pairwise_cons h.sorted he',
      h.narrow e List.mem_cons_self e' (List.mem_cons_of_mem _ he')⟩
  have hall : ∀ e' ∈ queue ++ (next e.1).map (·, e.2 + 1), e.2 ≤ e'.2 ∧ e'.2 ≤ e.2 + 1 := by
    intro e' he'
    rcases List.mem_append.mp he' with hold | hnew
    · exact hleast e' hold
    · obtain ⟨y, _, rfl⟩ := List.mem_map.mp hnew
      exact ⟨Nat.le_succ _, le_refl _⟩
  constructor
  case holds =>
    rw [List.map_append, List.map_map]
    exact congrArg _ (List.map_id _)
  case seen =>
    intro x
    rw [List.mem_cons, List.mem_append, List.mem_singleton, h.seen x, or_comm]
  case nodup =>
    rw [List.nodup_append]
    refine ⟨h.nodup, List.nodup_singleton _, ?_⟩
    rintro x hx y hy rfl
    rw [List.mem_singleton] at hy
    exact hfresh (hy ▸ hx)
  case walks =>
    intro e' he'
    rcases List.mem_append.mp he' with hold | hnew
    · exact h.walks e' (List.mem_cons_of_mem _ hold)
    · obtain ⟨y, hy, rfl⟩ := List.mem_map.mp hnew
      exact .step hwalk hy
  case sorted =>
    rw [List.pairwise_append, List.pairwise_map]
    refine ⟨h.sorted.of_cons, List.pairwise_of_forall fun _ _ => le_refl _, ?_⟩
    intro e' he' e'' he''
    obtain ⟨y, _, rfl⟩ := List.mem_map.mp he''
    exact (hleast e' he').2
  case narrow =>
    intro e₁ h₁ e₂ h₂
    have hlow := (hall e₁ h₁).1
    have hhigh := (hall e₂ h₂).2
    omega
  case reached =>
    intro x hx
    rcases List.mem_append.mp hx with hold | hnew
    · exact h.reached x hold
    · rw [List.mem_singleton.mp hnew]
      exact ⟨_, hwalk⟩
  case nearer =>
    intro x hx e' he'
    rcases List.mem_append.mp hx with hold | hnew
    · exact (h.nearer x hold e List.mem_cons_self).trans (hall e' he').1
    · rw [List.mem_singleton.mp hnew, hlabel]
      exact (hall e' he').1
  case ordered =>
    rw [List.pairwise_append]
    refine ⟨h.ordered, List.pairwise_singleton _ _, ?_⟩
    intro x hx y hy
    rw [List.mem_singleton.mp hy, hlabel]
    exact h.nearer x hx e List.mem_cons_self
  case first =>
    intro y hy
    rcases h.first y hy with hout | hwait
    · exact .inl (List.mem_append_left _ hout)
    · rcases List.mem_cons.mp hwait with heq | hrest
      · exact .inl (List.mem_append_right _ (List.mem_singleton.mpr (congrArg Prod.fst heq)))
      · exact .inr (List.mem_append_left _ hrest)
  case closed =>
    intro x hx y hy
    rcases List.mem_append.mp hx with hold | hnew
    · rcases h.closed x hold y hy with hout | ⟨e', he', rfl, hle⟩
      · exact .inl (List.mem_append_left _ hout)
      · rcases List.mem_cons.mp he' with rfl | hrest
        · exact .inl (List.mem_append_right _ List.mem_cons_self)
        · exact .inr ⟨e', List.mem_append_left _ hrest, rfl, hle⟩
    · rw [List.mem_singleton.mp hnew] at hy ⊢
      refine .inr ⟨(y, e.2 + 1), List.mem_append_right _ (List.mem_map_of_mem hy), rfl, ?_⟩
      rw [hlabel]

section Loop

variable [DecidableEq α]

theorem Levelled.step (h : Levelled next start s queue) (hstep : Search.step next s = some s') :
    ∃ queue', Levelled next start s' queue' := by
  rw [Search.step] at hstep
  cases queue with
  | nil =>
    have hempty : s.queue = [] := h.holds.symm
    rw [hempty] at hstep
    cases hstep
  | cons e queue =>
    have hqueue : s.queue = e.1 :: queue.map Prod.fst := h.holds.symm
    rw [hqueue] at hstep
    dsimp only at hstep
    split at hstep
    next hseen =>
      cases hstep
      exact ⟨queue, h.skip ((h.seen e.1).mp hseen)⟩
    next hfresh =>
      cases hstep
      exact ⟨_, h.visit fun hout => hfresh ((h.seen e.1).mpr hout)⟩

/-- What a search answers with: every node that is reached, once, the nearer ones first. -/
structure BreadthFirst (next : α → List α) (start : α) (out : List α) : Prop where
  nodup : out.Nodup
  reached : ∀ y, y ∈ out ↔ ∃ n, Walk next start n y
  ordered : out.Pairwise fun x y => distance next start x ≤ distance next start y

theorem Levelled.run {fuel : ℕ} {out : List α} (h : Levelled next start s queue)
    (hrun : run next fuel s = some out) : BreadthFirst next start out := by
  induction fuel generalizing s queue with
  | zero => cases hrun
  | succ fuel ih =>
    rw [Search.run] at hrun
    split at hrun
    next hstop =>
      obtain rfl := Option.some.inj hrun
      have hempty : queue = [] := by
        cases queue with
        | nil => rfl
        | cons e queue =>
          have hqueue : s.queue = e.1 :: queue.map Prod.fst := h.holds.symm
          rw [Search.step, hqueue] at hstop
          dsimp only at hstop
          split at hstop <;> cases hstop
      refine ⟨h.nodup, fun y => ⟨h.reached y, ?_⟩, h.ordered⟩
      rintro ⟨n, hwalk⟩
      rcases h.frontier hwalk with hout | ⟨e, he, _⟩
      · exact hout
      · rw [hempty] at he
        cases he
    next hstep =>
      obtain ⟨queue', h'⟩ := h.step hstep
      exact ih h' hrun

theorem run_mono {fuel more : ℕ} {out : List α} (h : run next fuel s = some out)
    (hle : fuel ≤ more) : run next more s = some out := by
  induction fuel generalizing s more with
  | zero => cases h
  | succ fuel ih =>
    cases more with
    | zero => omega
    | succ more =>
      rw [run] at h ⊢
      split at h
      next => exact h
      next => exact ih h (Nat.le_of_succ_le_succ hle)

/-- Every turn marks a node or shortens the queue, and there are finitely many nodes to mark. -/
theorem run_terminates (nodes : Finset α) (hnext : ∀ x, ∀ y ∈ next x, y ∈ nodes)
    (s : State α) (hqueue : ∀ x ∈ s.queue, x ∈ nodes) :
    ∃ fuel out, run next fuel s = some out := by
  induction hk : (nodes.filter (· ∉ s.seen)).card using Nat.strong_induction_on generalizing s with
  | _ k ih =>
    obtain ⟨out, seen, queue⟩ := s
    dsimp only at hqueue hk
    induction queue with
    | nil => exact ⟨1, out, rfl⟩
    | cons x queue ihq =>
      by_cases hseen : x ∈ seen
      · obtain ⟨fuel, found, hrun⟩ := ihq (fun y hy => hqueue y (List.mem_cons_of_mem _ hy)) hk
        refine ⟨fuel + 1, found, ?_⟩
        rw [run, step]
        dsimp only
        rw [if_pos hseen]
        exact hrun
      · have hless : (nodes.filter (· ∉ x :: seen)).card < k := by
          rw [← hk]
          apply Finset.card_lt_card
          rw [Finset.ssubset_iff_of_subset]
          · refine ⟨x, ?_, ?_⟩
            · rw [Finset.mem_filter]
              exact ⟨hqueue x List.mem_cons_self, hseen⟩
            · rw [Finset.mem_filter]
              exact fun h => h.2 List.mem_cons_self
          · intro y hy
            rw [Finset.mem_filter] at hy ⊢
            exact ⟨hy.1, fun h => hy.2 (List.mem_cons_of_mem _ h)⟩
        obtain ⟨fuel, found, hrun⟩ := ih _ hless ⟨out ++ [x], x :: seen, queue ++ next x⟩
          (fun y hy => by
            rcases List.mem_append.mp hy with hold | hnew
            · exact hqueue y (List.mem_cons_of_mem _ hold)
            · exact hnext x y hnew) rfl
        refine ⟨fuel + 1, found, ?_⟩
        rw [run, step]
        dsimp only
        rw [if_neg hseen]
        exact hrun

omit [DecidableEq α] in
theorem exists_nodes (h : {x | next x ≠ []}.Finite) :
    ∃ nodes : Finset α, ∀ x, ∀ y ∈ next x, y ∈ nodes := by
  classical
  refine ⟨h.toFinset.biUnion fun x => (next x).toFinset, ?_⟩
  intro x y hy
  rw [Finset.mem_biUnion]
  refine ⟨x, ?_, List.mem_toFinset.mpr hy⟩
  rw [Set.Finite.mem_toFinset]
  exact List.ne_nil_of_mem hy

/-- The search comes to an end, with everything that is reached. -/
theorem search (start : α) (h : {x | next x ≠ []}.Finite) :
    ∃ fuel out, (∀ more, fuel ≤ more → run next more ⟨[], [], next start⟩ = some out) ∧
      BreadthFirst next start out := by
  obtain ⟨nodes, hnodes⟩ := exists_nodes h
  obtain ⟨fuel, out, hrun⟩ := run_terminates nodes hnodes ⟨[], [], next start⟩ (hnodes start)
  exact ⟨fuel, out, fun more hle => run_mono hrun hle, levelled_start.run hrun⟩

end Loop

end Tracefold.Library.Search
