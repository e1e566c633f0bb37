/-
  File:      Ceres/Library/Closure.lean
  Subject:   COLLECTING WHAT IS REACHED IN A GRAPH BY PLAIN RECURSION.

  A node lists the next ones; what is reached is collected by recursion over them, without a record of
  the nodes that were met before.

  * `collect` -- the recursion, to a depth;
  * `mem_collect` -- it collects what is reached in one step or more;
  * `collect_isSome`, `collect_cycle` -- it ends where no cycle is reached, and only there;
  * `exists_rank_of_redirect` -- steps to nodes from which the new place is not reached make no cycle.
-/
import Mathlib.Tactic
import Mathlib.Logic.Relation
import Mathlib.Data.Fintype.Card

namespace Ceres.Library

namespace Closure

variable {α β : Type}

/-- The results of a call for each element, one after the other; `none` as soon as one is. -/
def gather (f : α → Option (List β)) : List α → Option (List β)
  | [] => some []
  | a :: rest => (f a).bind fun l => (gather f rest).map (l ++ ·)

theorem gather_eq_some {f : α → Option (List β)} {as : List α} {l : List β} (h : gather f as = some l) :
    (∀ a ∈ as, ∃ m, f a = some m) ∧ ∀ b, b ∈ l ↔ ∃ a ∈ as, ∃ m, f a = some m ∧ b ∈ m := by
  induction as generalizing l with
  | nil =>
    obtain rfl := Option.some.inj h
    simp
  | cons a rest ih =>
    obtain ⟨m, hm, hrest⟩ := Option.bind_eq_some_iff.mp h
    obtain ⟨k, hk, rfl⟩ := Option.map_eq_some_iff.mp hrest
    obtain ⟨hall, hmem⟩ := ih hk
    constructor
    · intro c hc
      rcases List.mem_cons.mp hc with rfl | hc
      · exact ⟨m, hm⟩
      · exact hall c hc
    · intro b
      rw [List.mem_append, hmem]
      constructor
      · intro hb
        rcases hb with hb | ⟨c, hc, n, hn, hb⟩
        · exact ⟨a, List.mem_cons_self, m, hm, hb⟩
        · exact ⟨c, List.mem_cons_of_mem _ hc, n, hn, hb⟩
      · intro ⟨c, hc, n, hn, hb⟩
        rcases List.mem_cons.mp hc with rfl | hc
        · obtain rfl := Option.some.inj (hm.symm.trans hn)
          exact .inl hb
        · exact .inr ⟨c, hc, n, hn, hb⟩

theorem gather_isSome {f : α → Option (List β)} {as : List α} (h : ∀ a ∈ as, (f a).isSome) :
    (gather f as).isSome := by
  induction as with
  | nil => rfl
  | cons a rest ih =>
    obtain ⟨m, hm⟩ := Option.isSome_iff_exists.mp (h a List.mem_cons_self)
    obtain ⟨k, hk⟩ := Option.isSome_iff_exists.mp (ih fun c hc => h c (List.mem_cons_of_mem _ hc))
    simp [gather, hm, hk]

/-- Calls that answer where others do, and the same, are gathered to the same. -/
theorem gather_mono {f g : α → Option (List β)} {as : List α} {l : List β}
    (hfg : ∀ a m, f a = some m → g a = some m) (h : gather f as = some l) : gather g as = some l := by
  induction as generalizing l with
  | nil => exact h
  | cons a rest ih =>
    rw [gather] at h ⊢
    obtain ⟨m, hm, hrest⟩ := Option.bind_eq_some_iff.mp h
    obtain ⟨k, hk, heq⟩ := Option.map_eq_some_iff.mp hrest
    rw [hfg a m hm, Option.bind_some, ih hk, Option.map_some, heq]

variable (next : α → List α)

/-- One step of the graph. -/
def Step (a b : α) : Prop := b ∈ next a

/-- The next nodes of `x`, then what is collected from each of them; `none` beyond the depth. -/
def collect : Nat → α → Option (List α)
  | 0, _ => none
  | n + 1, x => (gather (collect n) (next x)).map (next x ++ ·)

variable {next}

/-- **What is collected** is what is reached. -/
theorem mem_collect {n : Nat} {x : α} {l : List α} (h : collect next n x = some l) (y : α) :
    y ∈ l ↔ Relation.TransGen (Step next) x y := by
  induction n generalizing x l y with
  | zero => exact absurd h (by simp [collect])
  | succ n ih =>
    obtain ⟨m, hm, rfl⟩ := Option.map_eq_some_iff.mp h
    obtain ⟨hall, hmem⟩ := gather_eq_some hm
    rw [List.mem_append, hmem]
    constructor
    · intro hy
      rcases hy with hy | ⟨z, hz, k, hk, hy⟩
      · exact .single hy
      · exact .head hz ((ih hk y).mp hy)
    · intro hy
      rcases Relation.TransGen.head'_iff.mp hy with ⟨z, hz, hzy⟩
      rcases Relation.reflTransGen_iff_eq_or_transGen.mp hzy with heq | hzy
      · exact .inl (heq ▸ hz)
      · obtain ⟨k, hk⟩ := hall z hz
        exact .inr ⟨z, hz, k, hk, (ih hk y).mpr hzy⟩

/-- A cycle that is reached keeps the recursion going. -/
theorem collect_cycle {x y : α} (hxy : Relation.ReflTransGen (Step next) x y)
    (hy : Relation.TransGen (Step next) y y) (n : Nat) : collect next n x = none := by
  induction n generalizing x with
  | zero => rfl
  | succ n ih =>
    -- there is a step from `x` from which the cycle is still reached
    have hstep : ∃ z, Step next x z ∧ Relation.ReflTransGen (Step next) z y := by
      rcases Relation.ReflTransGen.cases_head hxy with heq | hz
      · rw [heq]
        exact Relation.TransGen.head'_iff.mp hy
      · exact hz
    obtain ⟨z, hz, hzy⟩ := hstep
    cases hgather : gather (collect next n) (next x) with
    | none => simp [collect, hgather]
    | some m =>
      obtain ⟨k, hk⟩ := (gather_eq_some hgather).1 z hz
      exact absurd ((ih hzy).symm.trans hk) (by simp)

open Classical in
/-- **The recursion ends where no cycle is reached**: each step down reaches fewer nodes. -/
theorem collect_isSome {x : α} (s : Finset α) (hs : ∀ y, Relation.TransGen (Step next) x y → y ∈ s)
    (h : ∀ y, Relation.ReflTransGen (Step next) x y → ¬ Relation.TransGen (Step next) y y) :
    (collect next (s.card + 1) x).isSome := by
  have hdepth : ∀ (n : Nat) (x : α), (∀ y, Relation.TransGen (Step next) x y → y ∈ s) →
      (∀ y, Relation.ReflTransGen (Step next) x y → ¬ Relation.TransGen (Step next) y y) →
      (s.filter (Relation.TransGen (Step next) x)).card < n → (collect next n x).isSome := by
    intro n
    induction n with
    | zero => exact fun x _ _ hn => absurd hn (Nat.not_lt_zero _)
    | succ n ih =>
      intro x hs hx hn
      rw [collect, Option.isSome_map]
      refine gather_isSome fun z hz => ih z (fun y hy => hs y (.head hz hy))
        (fun y hy => hx y (.head hz hy)) ?_
      refine Nat.lt_of_lt_of_le (Finset.card_lt_card ?_) (Nat.lt_succ_iff.mp hn)
      refine Finset.ssubset_iff_of_subset ?_ |>.mpr ⟨z, ?_, ?_⟩
      · intro y hy
        rw [Finset.mem_filter] at hy ⊢
        exact ⟨hy.1, .head hz hy.2⟩
      · rw [Finset.mem_filter]
        exact ⟨hs z (.single hz), .single hz⟩
      · rw [Finset.mem_filter]
        exact fun hzz => hx z (.single hz) hzz.2
  exact hdepth _ x hs h (Nat.lt_succ_of_le (Finset.card_filter_le _ _))

/-- Where each step goes up, nothing reaches itself. -/
theorem not_reaches_self {rank : α → Nat} (hrank : ∀ a b, b ∈ next a → rank a < rank b) (x : α) :
    ¬ Relation.TransGen (Step next) x x := by
  have hup : ∀ {y}, Relation.TransGen (Step next) x y → rank x < rank y := by
    intro y hy
    induction hy with
    | single hstep => exact hrank _ _ hstep
    | tail _ hstep ih => exact ih.trans (hrank _ _ hstep)
  exact fun hx => (hup hx).ne rfl

open Classical in
/-- **New steps from one node**: they make no cycle where they lead to nodes that do not reach it. -/
theorem exists_rank_of_redirect {next after : α → List α} {rank : α → Nat}
    (hrank : ∀ a b, b ∈ next a → rank a < rank b) {target : α} {moved : α → Prop}
    (hafter : ∀ a b, b ∈ after a → b ∈ next a ∨ (a = target ∧ moved b))
    (hmoved : ∀ p, moved p → ¬ Relation.ReflTransGen (Step next) p target) :
    ∃ rank : α → Nat, ∀ a b, b ∈ after a → rank a < rank b := by
  -- What is below the moved nodes is lifted above the target, which is not among it.
  let Below : α → Prop := fun x => ∃ p, moved p ∧ Relation.ReflTransGen (Step next) p x
  have htarget : ¬ Below target := fun ⟨p, hp, hreach⟩ => hmoved p hp hreach
  refine ⟨fun x => if Below x then rank x + rank target + 1 else rank x, fun a b hb => ?_⟩
  rcases hafter a b hb with hstep | ⟨rfl, hnew⟩
  · have hlt := hrank a b hstep
    by_cases ha : Below a
    · have hbelow : Below b := by
        obtain ⟨p, hp, hreach⟩ := ha
        exact ⟨p, hp, hreach.tail hstep⟩
      simp only [if_pos hbelow, if_pos ha]
      omega
    · simp only [if_neg ha]
      split
      · omega
      · exact hlt
  · have hbelow : Below b := ⟨b, hnew, .refl⟩
    simp only [if_pos hbelow, if_neg htarget]
    omega

end Closure

end Ceres.Library
