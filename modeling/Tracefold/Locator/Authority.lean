import Mathlib.Tactic.Common
import Tracefold.Locator.Percent

/-! The authority of a URI: what a second pass over a host that has been folded leaves. -/

namespace Tracefold.Locator

open Library.Text

theorem mem_toAsciiLowercase {c : Char} (hc : ¬ (97 ≤ c.toNat ∧ c.toNat ≤ 122))
    (hc' : ¬ (65 ≤ c.toNat ∧ c.toNat ≤ 90)) {text : Text} :
    c ∈ toAsciiLowercase text ↔ c ∈ text := by
  rw [toAsciiLowercase, List.mem_map]
  constructor
  · rintro ⟨d, hd, hlower⟩
    rwa [← (toLower_eq_iff hc hc' d).mp hlower]
  · intro h
    exact ⟨c, h, (toLower_eq_iff hc hc' c).mpr rfl⟩

theorem toAsciiLowercase_toAsciiLowercase (text : Text) :
    toAsciiLowercase (toAsciiLowercase text) = toAsciiLowercase text := by
  rw [toAsciiLowercase, toAsciiLowercase, List.map_map]
  exact List.map_congr_left fun c _ => toLower_toLower c

/-- What stands before a port: no `:` behind the last bracket, or in all of it. -/
def IsHost (host : Text) : Prop :=
  ∃ before after, (host = after ∨ host = before ++ ']' :: after) ∧ ']' ∉ after ∧ ':' ∉ after

def IsPort (port : Text) : Prop := ']' ∉ port ∧ ∀ c, port.head? = some c → c = ':'

theorem IsPort.cases {port : Text} (h : IsPort port) : port = [] ∨ ∃ rest, port = ':' :: rest := by
  cases port with
  | nil => exact .inl rfl
  | cons c rest =>
    obtain rfl := h.2 c rfl
    exact .inr ⟨rest, rfl⟩

theorem isPort_dropWhile {text : Text} (h : ']' ∉ text) : IsPort (text.dropWhile (· ≠ ':')) := by
  constructor
  · intro hmem
    exact h ((List.dropWhile_suffix _).subset hmem)
  · intro c hc
    simpa using head_dropWhile hc

theorem splitPort_spec (hostport : Text) :
    (splitPort hostport).1 ++ (splitPort hostport).2 = hostport ∧
      IsHost (splitPort hostport).1 ∧ IsPort (splitPort hostport).2 := by
  have hafter : ∀ {text : Text}, ']' ∉ text → ']' ∉ text.takeWhile (· ≠ ':') :=
    fun h hmem => h ((List.takeWhile_prefix _).subset hmem)
  rw [splitPort]
  split
  next before after hsplit =>
    obtain ⟨rfl, hbracket⟩ := rsplitOnce_eq_some hsplit
    refine ⟨?_, ⟨before, _, .inr rfl, hafter hbracket, not_mem_takeWhile⟩,
      isPort_dropWhile hbracket⟩
    dsimp only
    rw [List.append_assoc, List.cons_append, List.takeWhile_append_dropWhile]
  next hnone =>
    have hbracket := rsplitOnce_eq_none.mp hnone
    exact ⟨List.takeWhile_append_dropWhile, ⟨[], _, .inl rfl, hafter hbracket, not_mem_takeWhile⟩,
      isPort_dropWhile hbracket⟩

theorem splitPort_append {host port : Text} (hhost : IsHost host) (hport : IsPort port) :
    splitPort (host ++ port) = (host, port) := by
  obtain ⟨before, after, hshape, hbracket, hcolon⟩ := hhost
  have hnot : ']' ∉ after ++ port := by
    rw [List.mem_append, not_or]
    exact ⟨hbracket, hport.1⟩
  have hspan := @span_append _ (· ≠ ':') after port
    (fun x hx => decide_eq_true (ne_of_mem_of_not_mem hx hcolon))
    (fun x hx => by simp [hport.2 x hx])
  rcases hshape with rfl | rfl
  · rw [splitPort, rsplitOnce_eq_none.mpr hnot]
    dsimp only
    rw [hspan.1, hspan.2]
  · rw [splitPort, List.append_assoc, List.cons_append, rsplitOnce_append hnot]
    dsimp only
    rw [hspan.1, hspan.2]

theorem IsHost.toAsciiLowercase {host : Text} (h : IsHost host) :
    IsHost (toAsciiLowercase host) := by
  obtain ⟨before, after, hshape, hbracket, hcolon⟩ := h
  have hbracket' : ']' ∉ Locator.toAsciiLowercase after := by
    rwa [mem_toAsciiLowercase (by decide) (by decide)]
  have hcolon' : ':' ∉ Locator.toAsciiLowercase after := by
    rwa [mem_toAsciiLowercase (by decide) (by decide)]
  rcases hshape with rfl | rfl
  · exact ⟨[], _, .inl rfl, hbracket', hcolon'⟩
  · refine ⟨Locator.toAsciiLowercase before, Locator.toAsciiLowercase after, .inr ?_, hbracket',
      hcolon'⟩
    rw [Locator.toAsciiLowercase, List.map_append, List.map_cons]
    rfl

theorem IsHost.normalizePercent {host : Text} (h : IsHost host) :
    IsHost (normalizePercent host) := by
  obtain ⟨before, after, hshape, hbracket, hcolon⟩ := h
  have hbracket' := not_mem_normalizePercent (by decide : Separates ']') hbracket
  have hcolon' := not_mem_normalizePercent (by decide : Separates ':') hcolon
  rcases hshape with rfl | rfl
  · exact ⟨[], _, .inl rfl, hbracket', hcolon'⟩
  · exact ⟨_, _, .inr (normalizePercent_append (by decide) before after), hbracket', hcolon'⟩

theorem fold_normalizePercent_fold {hostport : Text} (h : Settled hostport) :
    normalizeAuthority.fold (normalizePercent (normalizeAuthority.fold hostport)) =
      normalizeAuthority.fold hostport := by
  obtain ⟨happend, hhost, hport⟩ := splitPort_spec hostport
  rw [normalizeAuthority.fold, normalizeAuthority.fold]
  generalize (splitPort hostport).1 = host at *
  generalize (splitPort hostport).2 = port at *
  subst happend
  have hpass : Settled host ∧
      normalizePercent (toAsciiLowercase host ++ port) =
        normalizePercent (toAsciiLowercase host) ++ port := by
    rcases hport.cases with rfl | ⟨rest, rfl⟩
    · rw [List.append_nil] at h ⊢
      exact ⟨h, (List.append_nil _).symm⟩
    · obtain ⟨hsettled, hrest⟩ := (settled_append (by decide)).mp h
      rw [normalizePercent_append (by decide), show normalizePercent rest = rest from hrest]
      exact ⟨hsettled, rfl⟩
  rw [hpass.2, splitPort_append hhost.toAsciiLowercase.normalizePercent hport,
    toAsciiLowercase_settled hpass.1]

theorem mem_fold {c : Char} (hc : ¬ (97 ≤ c.toNat ∧ c.toNat ≤ 122))
    (hc' : ¬ (65 ≤ c.toNat ∧ c.toNat ≤ 90)) {hostport : Text} :
    c ∈ normalizeAuthority.fold hostport ↔ c ∈ hostport := by
  rw [normalizeAuthority.fold, List.mem_append, mem_toAsciiLowercase hc hc', ← List.mem_append,
    (splitPort_spec hostport).1]

/-- Law L7 for an authority. -/
theorem normalizeAuthority_normalizeAuthority {authority : Text} (h : late authority = false) :
    normalizeAuthority (normalizeAuthority authority) = normalizeAuthority authority := by
  have hsettled := settled_normalizePercent h
  have hfolded : ∀ {hostport : Text}, '@' ∉ hostport →
      '@' ∉ normalizePercent (normalizeAuthority.fold hostport) := fun hnot =>
    not_mem_normalizePercent (by decide) (by rwa [mem_fold (by decide) (by decide)])
  rw [normalizeAuthority.eq_def authority]
  split
  next userinfo hostport hsplit =>
    obtain ⟨heq, hnot⟩ := rsplitOnce_eq_some hsplit
    rw [heq, settled_append (by decide)] at hsettled
    rw [normalizeAuthority, normalizePercent_append (by decide), rsplitOnce_append (hfolded hnot)]
    dsimp only
    rw [show normalizePercent userinfo = userinfo from hsettled.1,
      fold_normalizePercent_fold hsettled.2]
  next hnone =>
    have hnot := rsplitOnce_eq_none.mp hnone
    rw [normalizeAuthority, rsplitOnce_eq_none.mpr (hfolded hnot)]
    exact fold_normalizePercent_fold hsettled

theorem not_mem_normalizeAuthority {c : Char} (hsep : Separates c)
    (hc : ¬ (97 ≤ c.toNat ∧ c.toNat ≤ 122)) (hc' : ¬ (65 ≤ c.toNat ∧ c.toNat ≤ 90))
    {authority : Text} (h : c ∉ authority) : c ∉ normalizeAuthority authority := by
  have hpass := not_mem_normalizePercent hsep h
  rw [normalizeAuthority]
  split
  next userinfo hostport hsplit =>
    rw [(rsplitOnce_eq_some hsplit).1, List.mem_append, List.mem_cons, not_or, not_or] at hpass
    rw [List.mem_append, List.mem_cons, mem_fold hc hc', not_or, not_or]
    exact hpass
  next => rwa [mem_fold hc hc']

end Tracefold.Locator
