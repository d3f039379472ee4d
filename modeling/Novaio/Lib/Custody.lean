import Mathlib.Data.List.Count
import Mathlib.Data.List.Perm.Basic
import Mathlib.Data.Option.Basic
import Novaio.Lib.Ownership

/-!
# Custody of resources

Resources are issued to places, moved between places, and returned. A resource may be issued again
once it has been returned. Each issue mints a token of a ledger of ownership (`Ownership.Ledger`),
so that issues of one resource are told apart: a place owns the resource of the token that it holds,
and the resources returned are those of the tokens that are gone.

`Custody` says that the places, the issues and the returns fit such a ledger, and that no two places
own one resource. Then a resource has been returned as often as it has been issued, or once less,
and in this case exactly one place owns it (`Custody.count_issued`).
-/

namespace Ownership

variable {π ρ : Type*}

/-- The tokens that are not gone are held, each by one place. -/
theorem Exclusive.exists_kept {l : Ledger π} (h : Exclusive l) (hqueue : l.queue = []) :
    ∃ kept : List ℕ, kept.Nodup ∧ (∀ c, c ∈ kept ↔ ∃ p, l.holds p = some c) ∧
      (List.range l.minted).Perm (l.gone ++ kept) := by
  have hmem : ∀ c, c ∈ (List.range l.minted).filter (· ∉ l.gone) ↔ c < l.minted ∧ c ∉ l.gone := by
    intro c
    rw [List.mem_filter, List.mem_range, decide_eq_true_iff]
  have hnodup : ((List.range l.minted).filter (· ∉ l.gone)).Nodup := List.nodup_range.filter _
  refine ⟨(List.range l.minted).filter (· ∉ l.gone), hnodup, fun c => ?_, ?_⟩
  · rw [hmem]
    constructor
    · rintro ⟨hlt, hgone⟩
      rcases h.total c hlt with hheld | hqueued | hgone'
      · exact hheld
      · rw [hqueue] at hqueued
        exact (List.not_mem_nil hqueued).elim
      · exact absurd hgone' hgone
    · rintro ⟨p, hp⟩
      obtain ⟨hlt, -, hgone⟩ := h.held p c hp
      exact ⟨hlt, hgone⟩
  · have hdisjoint : (l.gone ++ (List.range l.minted).filter (· ∉ l.gone)).Nodup := by
      refine List.nodup_append.mpr ⟨h.nodup_gone, hnodup, ?_⟩
      rintro c hc _ hkept rfl
      exact ((hmem c).mp hkept).2 hc
    rw [List.perm_ext_iff_of_nodup List.nodup_range hdisjoint]
    intro c
    rw [List.mem_range, List.mem_append, hmem]
    have hlt := h.lt_of_gone c
    tauto

/-- The places own what their tokens stand for, and what is returned are the resources of the tokens
that are gone. -/
structure Custody (l : Ledger π) (owned : π → Option ρ) (issued returned : List ρ) : Prop where
  exclusive : Exclusive l
  queue_eq : l.queue = []
  minted_eq : l.minted = issued.length
  owned_eq : ∀ p, owned p = (l.holds p).bind (issued[·]?)
  returned_eq : returned.map some = l.gone.map (issued[·]?)
  injective : ∀ p q r, owned p = some r → owned q = some r → p = q

namespace Custody

variable {l : Ledger π} {owned : π → Option ρ} {issued returned : List ρ} {p q : π} {r : ρ}

/-- Before anything is issued. -/
theorem new : Custody (Ledger.new : Ledger π) (fun _ => none) ([] : List ρ) [] where
  exclusive := .new
  queue_eq := rfl
  minted_eq := rfl
  owned_eq _ := rfl
  returned_eq := rfl
  injective p q r hp := by simp at hp

/-- A token stands for a resource. -/
theorem exists_getElem (h : Custody l owned issued returned) {c : ℕ} (hc : l.holds p = some c) :
    ∃ r, issued[c]? = some r ∧ owned p = some r := by
  have hlt : c < issued.length := h.minted_eq ▸ (h.exclusive.held p c hc).1
  refine ⟨issued[c], List.getElem?_eq_getElem hlt, ?_⟩
  rw [h.owned_eq, hc]
  exact List.getElem?_eq_getElem hlt

/-- A place that owns nothing holds no token. -/
theorem holds_eq_none (h : Custody l owned issued returned) (hp : owned p = none) :
    l.holds p = none := by
  cases hc : l.holds p with
  | none => rfl
  | some c =>
    obtain ⟨r, -, hr⟩ := h.exists_getElem hc
    rw [hp] at hr
    simp at hr

/-- What has been issued keeps its number. -/
theorem bind_append (h : Custody l owned issued returned) (p : π) (r : ρ) :
    (l.holds p).bind ((issued ++ [r])[·]?) = (l.holds p).bind (issued[·]?) := by
  cases hc : l.holds p with
  | none => rfl
  | some c =>
    have hlt : c < issued.length := h.minted_eq ▸ (h.exclusive.held p c hc).1
    exact List.getElem?_append_left hlt

/-- How often a resource has been issued. -/
theorem count_issued [BEq ρ] [LawfulBEq ρ] (h : Custody l owned issued returned) (r : ρ) :
    (∃ p, owned p = some r) ∧ issued.count r = returned.count r + 1 ∨
      (∀ p, owned p ≠ some r) ∧ issued.count r = returned.count r := by
  obtain ⟨kept, hnodup, hmem, hperm⟩ := h.exclusive.exists_kept h.queue_eq
  have hissued : issued.map some = (List.range l.minted).map (issued[·]?) := by
    rw [h.minted_eq]
    apply List.ext_getElem (by simp)
    intro i h1 h2
    simp
  -- The resources issued are those returned and those of the tokens kept.
  have hcount : issued.count r = returned.count r + (kept.map (issued[·]?)).count (some r) := by
    have hsome := (Option.some_injective ρ)
    calc issued.count r = (issued.map some).count (some r) :=
          (List.count_map_of_injective issued some hsome r).symm
      _ = ((l.gone ++ kept).map (issued[·]?)).count (some r) := by
          rw [hissued, (hperm.map (issued[·]?)).count_eq]
      _ = (returned.map some).count (some r) + (kept.map (issued[·]?)).count (some r) := by
          rw [List.map_append, List.count_append, h.returned_eq]
      _ = returned.count r + (kept.map (issued[·]?)).count (some r) := by
          rw [List.count_map_of_injective returned some hsome r]
  -- No two tokens kept stand for one resource.
  have hdistinct : (kept.map (issued[·]?)).Nodup := by
    refine List.Nodup.map_on (fun c hc d hd heq => ?_) hnodup
    obtain ⟨p, hp⟩ := (hmem c).mp hc
    obtain ⟨q, hq⟩ := (hmem d).mp hd
    obtain ⟨r, hr, hpr⟩ := h.exists_getElem hp
    obtain ⟨r', hr', hqr⟩ := h.exists_getElem hq
    have hsame : r = r' := Option.some.inj (hr.symm.trans (heq.trans hr'))
    subst hsame
    obtain rfl := h.injective p q r hpr hqr
    exact Option.some.inj (hp.symm.trans hq)
  have howned : (∃ p, owned p = some r) ↔ some r ∈ kept.map (issued[·]?) := by
    rw [List.mem_map]
    constructor
    · rintro ⟨p, hp⟩
      have hbind := hp
      rw [h.owned_eq, Option.bind_eq_some_iff] at hbind
      obtain ⟨c, hc, hr⟩ := hbind
      exact ⟨c, (hmem c).mpr ⟨p, hc⟩, hr⟩
    · rintro ⟨c, hc, hr⟩
      obtain ⟨p, hp⟩ := (hmem c).mp hc
      exact ⟨p, by rw [h.owned_eq, hp]; exact hr⟩
  by_cases hr : some r ∈ kept.map (issued[·]?)
  · rw [List.count_eq_one_of_mem hdistinct hr] at hcount
    exact .inl ⟨howned.mpr hr, hcount⟩
  · rw [List.count_eq_zero_of_not_mem hr] at hcount
    exact .inr ⟨not_exists.mp (mt howned.mp hr), hcount⟩

variable [DecidableEq π]

/-- A resource that no place owns is issued to a place that owns nothing. -/
theorem issue (h : Custody l owned issued returned) (hp : owned p = none)
    (hr : ∀ q, owned q ≠ some r) :
    Custody (l.mint p) (Function.update owned p (some r)) (issued ++ [r]) returned where
  exclusive := h.exclusive.mint (h.holds_eq_none hp)
  queue_eq := h.queue_eq
  minted_eq := by
    rw [List.length_append, ← h.minted_eq]
    rfl
  owned_eq q := by
    show _ = (Function.update l.holds p (some l.minted) q).bind _
    rcases eq_or_ne q p with rfl | hne
    · rw [Function.update_self, Function.update_self, h.minted_eq]
      exact (List.getElem?_concat_length).symm
    · rw [Function.update_of_ne hne, Function.update_of_ne hne, h.bind_append, h.owned_eq]
  returned_eq := by
    rw [h.returned_eq]
    apply List.map_congr_left
    intro c hc
    exact (List.getElem?_append_left (h.minted_eq ▸ h.exclusive.lt_of_gone c hc)).symm
  injective q q' s hq hq' := by
    have hinjective := h.injective q q' s
    have hfree := hr q
    have hfree' := hr q'
    simp only [Function.update_apply] at hq hq'
    grind

/-- What a place owns moves to another one that owns nothing. -/
theorem move (h : Custody l owned issued returned) (hp : owned p = none) (hpq : p ≠ q) :
    Custody (l.move p q) (Function.update (Function.update owned p (owned q)) q none) issued
      returned where
  exclusive := h.exclusive.move (h.holds_eq_none hp) hpq
  queue_eq := h.queue_eq
  minted_eq := h.minted_eq
  owned_eq x := by
    show _ = (Function.update (Function.update l.holds p (l.holds q)) q none x).bind _
    rcases eq_or_ne x q with rfl | hxq
    · rw [Function.update_self, Function.update_self]
      rfl
    rw [Function.update_of_ne hxq, Function.update_of_ne hxq]
    rcases eq_or_ne x p with rfl | hxp
    · rw [Function.update_self, Function.update_self, h.owned_eq]
    · rw [Function.update_of_ne hxp, Function.update_of_ne hxp, h.owned_eq]
  returned_eq := h.returned_eq
  injective x y s hx hy := by
    have hinjective := h.injective
    simp only [Function.update_apply] at hx hy
    grind

/-- What a place owns is returned. -/
theorem release (h : Custody l owned issued returned) (p : π) :
    Custody (l.release p) (Function.update owned p none) issued
      (returned ++ (owned p).toList) where
  exclusive := h.exclusive.release p
  queue_eq := h.queue_eq
  minted_eq := h.minted_eq
  owned_eq x := by
    show _ = (Function.update l.holds p none x).bind _
    rcases eq_or_ne x p with rfl | hne
    · rw [Function.update_self, Function.update_self]
      rfl
    · rw [Function.update_of_ne hne, Function.update_of_ne hne, h.owned_eq]
  returned_eq := by
    show _ = (l.gone ++ (l.holds p).toList).map _
    rw [List.map_append, List.map_append, h.returned_eq]
    congr 1
    cases hc : l.holds p with
    | none =>
      rw [h.owned_eq, hc]
      rfl
    | some c =>
      obtain ⟨r, hr, hpr⟩ := h.exists_getElem hc
      rw [hpr]
      exact congrArg (fun x => [x]) hr.symm
  injective x y s hx hy := by
    have hinjective := h.injective x y s
    simp only [Function.update_apply] at hx hy
    grind

end Custody

end Ownership
