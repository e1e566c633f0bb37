/-
  File:      Ceres/Database/Parsed.lean
  Subject:   FINISHING A PARSED FILTER (`Parsed::finish`).

  A subfilter can carry `order`, `limit` and `offset` of its own. They are no conditions: when a node is
  finished, those of its `and` children hoist into it, and an `or` child that carries one is refused.
  Children are finished before their parent, so what a child carries includes what it has hoisted.

  * `Parsed`, `Finished`, `finishNode`, `Parsed.finish` -- the filter mid-parse, and how it is finished;
  * `Parsed.limits`, `Parsed.offsets`, `Parsed.orders` -- what the tree says of the query controls;
  * **`finish_spec`** -- a tree is refused, or its controls are the least limit, the greatest offset and
    the DEEPEST order of its `and` descendants;
  * **`finish_hoists_iff`** -- so the order is the one the filter's documentation promises exactly when
    the first order that is named is also the deepest.
-/
import Ceres.Database.Filter

namespace Ceres.Database

open Ceres.Library

set_option linter.unusedSectionVars false

/-! ## 1. The filter mid-parse -/

/-- Why a filter is refused. -/
inductive Refusal where
  | delegated
  | invalid (message : String)
  deriving DecidableEq, Repr

/-- A filter node mid-parse, its query controls and subfilter groups still attached. -/
inductive Parsed where
  | mk (own : Conditions) (order : List OrderTerm) (limit offset : Option UInt64)
      (andGroup orGroup : List Parsed)

/-- A finished node, with the query controls it carries. -/
structure Finished where
  node : FilterNode
  order : List OrderTerm
  limit : Option UInt64
  offset : Option UInt64

/-- Whether a range field gives the node a start, and an end. -/
def Conditions.hasStart (own : Conditions) : Bool :=
  own.after.isSome || own.timespan.isSome || own.maxAge.isSome

def Conditions.hasEnd (own : Conditions) : Bool :=
  own.before.isSome || own.timespan.isSome || own.minAge.isSome

/-- What a count-based subsample misses of its time range. -/
def Conditions.missing (own : Conditions) : Option String :=
  if own.subsample.isNone then none
  else
    match own.hasStart, own.hasEnd with
    | true, true => none
    | false, false => some "Start and end time"
    | false, true => some "Start time"
    | true, false => some "End time"

/-- The first query control that a node carries. -/
def Finished.control (child : Finished) : Option String :=
  if child.order ≠ [] then some "order"
  else if child.limit.isSome then some "limit"
  else if child.offset.isSome then some "offset"
  else none

/-- Two optional values, joined when both are there. -/
def joined {α : Type} (pick : α → α → α) : Option α → Option α → Option α
  | some own, some value => some (pick own value)
  | none, some value => some value
  | own, none => own

/-- Take over an `and` child's controls: the last ordering wins, the tightest limit and the deepest
    offset hold. -/
def Finished.hoist (parent child : Finished) : Finished :=
  { parent with
    order := if child.order ≠ [] then child.order else parent.order
    limit := joined min parent.limit child.limit
    offset := joined max parent.offset child.offset }

/-- Finish one node whose children are finished. -/
def finishNode (own : Conditions) (order : List OrderTerm) (limit offset : Option UInt64)
    (andGroup orGroup : List Finished) : Except Refusal Finished :=
  match own.missing with
  | some subject =>
    .error (.invalid (subject ++ " for `subsample` time range could not be determined."))
  | none =>
    match orGroup.findSome? Finished.control with
    | some name =>
      .error (.invalid ("Cannot specify `" ++ name ++ "` in `or__` subfilters. Use `and__` instead."))
    | none =>
      .ok (andGroup.foldl Finished.hoist
        { node := .node own (andGroup.map (·.node)) (orGroup.map (·.node)), order, limit, offset })

mutual

def Parsed.finish : Parsed → Except Refusal Finished
  | .mk own order limit offset andGroup orGroup =>
    match finishAll andGroup with
    | .error refusal => .error refusal
    | .ok ands =>
      match finishAll orGroup with
      | .error refusal => .error refusal
      | .ok ors => finishNode own order limit offset ands ors

def finishAll : List Parsed → Except Refusal (List Finished)
  | [] => .ok []
  | child :: children =>
    match child.finish with
    | .error refusal => .error refusal
    | .ok child =>
      match finishAll children with
      | .error refusal => .error refusal
      | .ok children => .ok (child :: children)

end

/-! ## 2. What a tree says of its controls -/

mutual

/-- The limits of a node and of all its `and` descendants. -/
def Parsed.limits : Parsed → List Nat
  | .mk _ _ limit _ andGroup _ => (limit.map UInt64.toNat).toList ++ limitsOf andGroup

def limitsOf : List Parsed → List Nat
  | [] => []
  | child :: children => child.limits ++ limitsOf children

end

mutual

/-- The offsets of a node and of all its `and` descendants. -/
def Parsed.offsets : Parsed → List Nat
  | .mk _ _ _ offset andGroup _ => (offset.map UInt64.toNat).toList ++ offsetsOf andGroup

def offsetsOf : List Parsed → List Nat
  | [] => []
  | child :: children => child.offsets ++ offsetsOf children

end

mutual

/-- The orders that are named on the way down: a node's own, then those of the last of its `and` children
    that has one. -/
def Parsed.orders : Parsed → List (List OrderTerm)
  | .mk _ order _ _ andGroup _ => (if order = [] then [] else [order]) ++ lastOrders andGroup

def lastOrders : List Parsed → List (List OrderTerm)
  | [] => []
  | child :: children => if lastOrders children = [] then child.orders else lastOrders children

end

mutual

/-- The order the filter's documentation promises: the root's own when it names one, otherwise the last
    of its `and` children. -/
def Parsed.promisedOrder : Parsed → List OrderTerm
  | .mk _ order _ _ andGroup _ => if order ≠ [] then order else promisedLast andGroup

def promisedLast : List Parsed → List OrderTerm
  | [] => []
  | child :: children =>
    if promisedLast children ≠ [] then promisedLast children else child.promisedOrder

end

/-- The node ends up carrying a query control. -/
def Parsed.carries (parsed : Parsed) : Prop :=
  parsed.orders ≠ [] ∨ parsed.limits ≠ [] ∨ parsed.offsets ≠ []

/-- Somewhere in the tree an `or` child ends up carrying a query control, or a node is invalid. -/
inductive Refused : Parsed → Prop where
  | range {own order limit offset andGroup orGroup} (h : own.missing ≠ none) :
      Refused (.mk own order limit offset andGroup orGroup)
  | control {own order limit offset andGroup orGroup} (child : Parsed) (hchild : child ∈ orGroup)
      (h : child.carries) : Refused (.mk own order limit offset andGroup orGroup)
  | andChild {own order limit offset andGroup orGroup} (child : Parsed) (hchild : child ∈ andGroup)
      (h : Refused child) : Refused (.mk own order limit offset andGroup orGroup)
  | orChild {own order limit offset andGroup orGroup} (child : Parsed) (hchild : child ∈ orGroup)
      (h : Refused child) : Refused (.mk own order limit offset andGroup orGroup)

/-! ## 3. How the controls join -/

/-- A choice by an order, over two lists together. -/
theorem joined_append {le : Nat → Nat → Prop} {pick : Nat → Nat → Nat}
    {choose : List Nat → Option Nat} (htrans : ∀ {x y z}, le x y → le y z → le x z)
    (hpick : ∀ x y, (pick x y = x ∨ pick x y = y) ∧ le (pick x y) x ∧ le (pick x y) y)
    (hnone : ∀ {values}, choose values = none ↔ values = [])
    (hsome : ∀ {values m}, choose values = some m ↔ m ∈ values ∧ ∀ x ∈ values, le m x)
    (a b : List Nat) : choose (a ++ b) = joined pick (choose a) (choose b) := by
  cases ha : choose a with
  | none =>
    rw [hnone.mp ha, List.nil_append]
    cases hb : choose b <;> rfl
  | some m =>
    cases hb : choose b with
    | none =>
      rw [hnone.mp hb, List.append_nil, ha]
      rfl
    | some n =>
      rw [joined, hsome]
      rw [hsome] at ha hb
      obtain ⟨heq, hm, hn⟩ := hpick m n
      constructor
      · rcases heq with heq | heq
        · rw [heq]
          exact List.mem_append_left b ha.1
        · rw [heq]
          exact List.mem_append_right a hb.1
      · intro x hx
        rcases List.mem_append.mp hx with hx | hx
        · exact htrans hm (ha.2 x hx)
        · exact htrans hn (hb.2 x hx)

theorem min?_append (a b : List Nat) : (a ++ b).min? = joined min a.min? b.min? :=
  @joined_append (· ≤ ·) _ _ le_trans
    (fun x y => ⟨min_choice x y, min_le_left x y, min_le_right x y⟩)
    List.min?_eq_none_iff List.min?_eq_some_iff a b

theorem max?_append (a b : List Nat) : (a ++ b).max? = joined max a.max? b.max? :=
  @joined_append (fun x y => y ≤ x) _ _ (fun h h' => le_trans h' h)
    (fun x y => ⟨max_choice x y, le_max_left x y, le_max_right x y⟩)
    List.max?_eq_none_iff List.max?_eq_some_iff a b

theorem joined_toNat {pick : UInt64 → UInt64 → UInt64} {pick' : Nat → Nat → Nat}
    (h : ∀ x y, (pick x y).toNat = pick' x.toNat y.toNat) (a b : Option UInt64) :
    (joined pick a b).map UInt64.toNat = joined pick' (a.map UInt64.toNat) (b.map UInt64.toNat) := by
  cases a <;> cases b <;> simp [joined, h]

theorem toNat_min (x y : UInt64) : (min x y).toNat = min x.toNat y.toNat := by
  show (if x ≤ y then x else y).toNat = min x.toNat y.toNat
  by_cases h : x ≤ y
  · rw [if_pos h, min_eq_left (UInt64.le_iff_toNat_le.mp h)]
  · rw [if_neg h, min_eq_right (not_le.mp (mt UInt64.le_iff_toNat_le.mpr h)).le]

theorem toNat_max (x y : UInt64) : (max x y).toNat = max x.toNat y.toNat := by
  show (if x ≤ y then y else x).toNat = max x.toNat y.toNat
  by_cases h : x ≤ y
  · rw [if_pos h, max_eq_right (UInt64.le_iff_toNat_le.mp h)]
  · rw [if_neg h, max_eq_left (not_le.mp (mt UInt64.le_iff_toNat_le.mpr h)).le]

mutual

theorem ne_nil_of_mem_orders : ∀ {parsed : Parsed} {order : List OrderTerm}, order ∈ parsed.orders → order ≠ []
  | .mk _ own _ _ andGroup _, order, h => by
      rw [Parsed.orders, List.mem_append] at h
      rcases h with h | h
      · by_cases hown : own = []
        · simp [hown] at h
        · rw [if_neg hown, List.mem_singleton] at h
          exact h ▸ hown
      · exact ne_nil_of_mem_lastOrders h

theorem ne_nil_of_mem_lastOrders : ∀ {children : List Parsed} {order : List OrderTerm},
    order ∈ lastOrders children → order ≠ []
  | [], _, h => by simp [lastOrders] at h
  | child :: children, order, h => by
      rw [lastOrders] at h
      by_cases hlast : lastOrders children = []
      · rw [if_pos hlast] at h
        exact ne_nil_of_mem_orders h
      · rw [if_neg hlast] at h
        exact ne_nil_of_mem_lastOrders h

end

theorem getLastD_orders_eq_nil {parsed : Parsed} : parsed.orders.getLastD [] = [] ↔ parsed.orders = [] := by
  constructor
  · intro h
    by_contra hne
    rw [List.getLastD_eq_getLast?, List.getLast?_eq_getLast_of_ne_nil hne, Option.getD_some] at h
    exact ne_nil_of_mem_orders (List.getLast_mem hne) h
  · intro h
    rw [h]
    rfl

/-! ## 4. What finishing does -/

/-- The finished node carries what the tree says. -/
structure Hoisted (parsed : Parsed) (finished : Finished) : Prop where
  order : finished.order = parsed.orders.getLastD []
  limit : finished.limit.map UInt64.toNat = parsed.limits.min?
  offset : finished.offset.map UInt64.toNat = parsed.offsets.max?

theorem Hoisted.control_eq_none {parsed : Parsed} {finished : Finished} (h : Hoisted parsed finished) :
    finished.control = none ↔ ¬ parsed.carries := by
  have horder : finished.order = [] ↔ parsed.orders = [] := by
    rw [h.order, getLastD_orders_eq_nil]
  have hlimit : finished.limit = none ↔ parsed.limits = [] := by
    rw [← List.min?_eq_none_iff, ← h.limit, Option.map_eq_none_iff]
  have hoffset : finished.offset = none ↔ parsed.offsets = [] := by
    rw [← List.max?_eq_none_iff, ← h.offset, Option.map_eq_none_iff]
  rw [Parsed.carries, not_or, not_or, not_not, not_not, not_not, ← horder, ← hlimit, ← hoffset,
    Finished.control]
  by_cases ho : finished.order = []
  · cases hl : finished.limit with
    | none => cases hf : finished.offset <;> simp [ho]
    | some limit => simp [ho]
  · simp [ho]

/-- The loop over the finished `and` children. -/
theorem foldl_hoist {children : List Parsed} {ands : List Finished}
    (h : List.Forall₂ Hoisted children ands) : ∀ {parent : Finished} {orders : List (List OrderTerm)}
    {limits offsets : List Nat}, parent.order = orders.getLastD [] →
    parent.limit.map UInt64.toNat = limits.min? → parent.offset.map UInt64.toNat = offsets.max? →
    (ands.foldl Finished.hoist parent).order = (orders ++ lastOrders children).getLastD [] ∧
      (ands.foldl Finished.hoist parent).limit.map UInt64.toNat = (limits ++ limitsOf children).min? ∧
      (ands.foldl Finished.hoist parent).offset.map UInt64.toNat = (offsets ++ offsetsOf children).max? := by
  induction h with
  | nil =>
    intro parent orders limits offsets ho hl hf
    simp only [lastOrders, limitsOf, offsetsOf, List.append_nil, List.foldl_nil]
    exact ⟨ho, hl, hf⟩
  | @cons child finished children ands hchild _ ih =>
    intro parent orders limits offsets ho hl hf
    have horder : (parent.hoist finished).order = (orders ++ child.orders).getLastD [] := by
      show (if finished.order ≠ [] then finished.order else parent.order) = _
      rw [hchild.order, ho]
      by_cases hnil : child.orders = []
      · rw [if_neg (not_not.mpr (getLastD_orders_eq_nil.mpr hnil)), hnil, List.append_nil]
      · rw [if_pos (mt getLastD_orders_eq_nil.mp hnil), List.getLastD_eq_getLast?,
          List.getLastD_eq_getLast?, List.getLast?_append_of_ne_nil _ hnil]
    have hlimit : (parent.hoist finished).limit.map UInt64.toNat = (limits ++ child.limits).min? := by
      rw [min?_append, ← hl, ← hchild.limit]
      exact joined_toNat toNat_min _ _
    have hoffset : (parent.hoist finished).offset.map UInt64.toNat = (offsets ++ child.offsets).max? := by
      rw [max?_append, ← hf, ← hchild.offset]
      exact joined_toNat toNat_max _ _
    obtain ⟨ho', hl', hf'⟩ := ih horder hlimit hoffset
    rw [List.foldl_cons]
    refine ⟨?_, ?_, ?_⟩
    · rw [ho', lastOrders]
      by_cases hlast : lastOrders children = []
      · rw [if_pos hlast, hlast, List.append_nil]
      · rw [if_neg hlast, List.getLastD_eq_getLast?, List.getLastD_eq_getLast?,
          List.getLast?_append_of_ne_nil _ hlast, List.getLast?_append_of_ne_nil _ hlast]
    · rw [hl', limitsOf, List.append_assoc]
    · rw [hf', offsetsOf, List.append_assoc]

theorem findSome?_control_eq_none {orGroup : List Parsed} {ors : List Finished}
    (h : List.Forall₂ Hoisted orGroup ors) :
    ors.findSome? Finished.control = none ↔ ∀ child ∈ orGroup, ¬ child.carries := by
  induction h with
  | nil => simp
  | cons hchild _ ih =>
    rw [List.forall_mem_cons, ← ih, ← hchild.control_eq_none, List.findSome?_cons]
    cases Finished.control _ <;> simp

/-- **Finishing one node** refuses it, or hoists what its children carry. -/
theorem finishNode_spec {own : Conditions} {order : List OrderTerm} {limit offset : Option UInt64}
    {andGroup orGroup : List Parsed} {ands ors : List Finished}
    (hands : List.Forall₂ Hoisted andGroup ands) (hors : List.Forall₂ Hoisted orGroup ors) :
    (∃ refusal, finishNode own order limit offset ands ors = .error refusal ∧
        (own.missing ≠ none ∨ ∃ child ∈ orGroup, child.carries)) ∨
      ∃ finished, finishNode own order limit offset ands ors = .ok finished ∧
        own.missing = none ∧ (∀ child ∈ orGroup, ¬ child.carries) ∧
        Hoisted (.mk own order limit offset andGroup orGroup) finished := by
  unfold finishNode
  cases hmissing : own.missing with
  | some subject => exact .inl ⟨_, rfl, .inl (by simp)⟩
  | none =>
    cases hcontrol : ors.findSome? Finished.control with
    | some name =>
      refine .inl ⟨_, rfl, .inr ?_⟩
      by_contra hno
      rw [(findSome?_control_eq_none hors).mpr fun child hchild h => hno ⟨child, hchild, h⟩] at hcontrol
      cases hcontrol
    | none =>
      refine .inr ⟨_, rfl, rfl, (findSome?_control_eq_none hors).mp hcontrol, ?_⟩
      have horder : order = (if order = [] then [] else [order]).getLastD [] := by
        by_cases h : order = []
        · rw [if_pos h, h]
          rfl
        · rw [if_neg h]
          rfl
      have hlimit : limit.map UInt64.toNat = (limit.map UInt64.toNat).toList.min? := by
        cases limit <;> rfl
      have hoffset : offset.map UInt64.toNat = (offset.map UInt64.toNat).toList.max? := by
        cases offset <;> rfl
      obtain ⟨ho, hl, hf⟩ := @foldl_hoist _ _ hands
        { node := .node own (ands.map (·.node)) (ors.map (·.node)), order, limit, offset } _ _ _
        horder hlimit hoffset
      refine ⟨?_, ?_, ?_⟩
      · rw [Parsed.orders]
        exact ho
      · rw [Parsed.limits]
        exact hl
      · rw [Parsed.offsets]
        exact hf

mutual

/-- **A tree is refused, or its controls are hoisted.** -/
theorem finish_spec : ∀ parsed : Parsed, (∃ refusal, parsed.finish = .error refusal ∧ Refused parsed) ∨
      ∃ finished, parsed.finish = .ok finished ∧ ¬ Refused parsed ∧ Hoisted parsed finished
  | .mk own order limit offset andGroup orGroup => by
      rw [Parsed.finish]
      rcases finishAll_spec andGroup with ⟨refusal, hfinish, child, hchild, hrefused⟩ |
        ⟨ands, hfinish, handsOk, hands⟩
      · rw [hfinish]
        exact .inl ⟨refusal, rfl, .andChild child hchild hrefused⟩
      · rw [hfinish]
        rcases finishAll_spec orGroup with ⟨refusal, hfinish, child, hchild, hrefused⟩ |
          ⟨ors, hfinish, horsOk, hors⟩
        · rw [hfinish]
          exact .inl ⟨refusal, rfl, .orChild child hchild hrefused⟩
        · rw [hfinish]
          rcases @finishNode_spec own order limit offset _ _ _ _ hands hors with
            ⟨refusal, hnode, hmissing | ⟨child, hchild, hcarries⟩⟩ | ⟨finished, hnode, hmissing, hno, hhoisted⟩
          · exact .inl ⟨refusal, hnode, .range hmissing⟩
          · exact .inl ⟨refusal, hnode, .control child hchild hcarries⟩
          · refine .inr ⟨finished, hnode, fun hrefused => ?_, hhoisted⟩
            cases hrefused with
            | range h => exact h hmissing
            | control child hchild h => exact hno child hchild h
            | andChild child hchild h => exact handsOk child hchild h
            | orChild child hchild h => exact horsOk child hchild h

theorem finishAll_spec : ∀ children : List Parsed,
    (∃ refusal, finishAll children = .error refusal ∧ ∃ child ∈ children, Refused child) ∨
      ∃ finished, finishAll children = .ok finished ∧ (∀ child ∈ children, ¬ Refused child) ∧
        List.Forall₂ Hoisted children finished
  | [] => .inr ⟨[], rfl, by simp, .nil⟩
  | child :: children => by
      rw [finishAll]
      rcases finish_spec child with ⟨refusal, hfinish, hrefused⟩ | ⟨finished, hfinish, hok, hhoisted⟩
      · rw [hfinish]
        exact .inl ⟨refusal, rfl, child, List.mem_cons_self, hrefused⟩
      · rw [hfinish]
        rcases finishAll_spec children with ⟨refusal, hrest, other, hother, hrefused⟩ |
          ⟨rest, hrest, hrestOk, hrestHoisted⟩
        · rw [hrest]
          exact .inl ⟨refusal, rfl, other, List.mem_cons_of_mem child hother, hrefused⟩
        · rw [hrest]
          exact .inr ⟨finished :: rest, rfl, List.forall_mem_cons.mpr ⟨hok, hrestOk⟩,
            .cons hhoisted hrestHoisted⟩

end

/-! ## 5. The order that is promised -/

mutual

/-- The promised order is the first that is named on the way down. -/
theorem promisedOrder_eq : ∀ parsed : Parsed, parsed.promisedOrder = parsed.orders.headD []
  | .mk own order limit offset andGroup orGroup => by
      rw [Parsed.promisedOrder, Parsed.orders]
      by_cases h : order = []
      · rw [if_neg (not_not.mpr h), if_pos h, List.nil_append, promisedLast_eq]
      · rw [if_pos h, if_neg h]
        rfl

theorem promisedLast_eq : ∀ children : List Parsed, promisedLast children = (lastOrders children).headD []
  | [] => rfl
  | child :: children => by
      have hnil : promisedLast children = [] ↔ lastOrders children = [] := by
        rw [promisedLast_eq children]
        cases hlast : lastOrders children with
        | nil => simp
        | cons first rest =>
          have hfirst := ne_nil_of_mem_lastOrders (hlast ▸ List.mem_cons_self : first ∈ lastOrders children)
          simp [hfirst]
      rw [promisedLast, lastOrders]
      by_cases h : lastOrders children = []
      · rw [if_neg (not_not.mpr (hnil.mpr h)), if_pos h, promisedOrder_eq child]
      · rw [if_pos (mt hnil.mp h), if_neg h, promisedLast_eq children]

end

theorem getLastD_eq_headD_iff {parsed : Parsed} : parsed.orders.getLastD [] = parsed.orders.headD [] ↔
      parsed.orders.head? = parsed.orders.getLast? := by
  cases h : parsed.orders with
  | nil => simp
  | cons first rest =>
    rw [List.getLastD_eq_getLast?, List.getLast?_eq_getLast_of_ne_nil (List.cons_ne_nil first rest)]
    simp [eq_comm]

/-- **How query controls hoist.** A tree is refused exactly when an `or` child ends up carrying a control
    or a node is invalid. Otherwise the limit is the least and the offset the greatest of the node's and
    its `and` descendants'; and the order is the promised one exactly when the first order named on the
    way down is also the deepest, because a child's order replaces its parent's. -/
theorem finish_hoists_iff (parsed : Parsed) :
    ((∃ refusal, parsed.finish = .error refusal) ↔ Refused parsed) ∧
      ∀ finished, parsed.finish = .ok finished →
        finished.limit.map UInt64.toNat = parsed.limits.min? ∧
        finished.offset.map UInt64.toNat = parsed.offsets.max? ∧
        (finished.order = parsed.promisedOrder ↔
          parsed.orders.head? = parsed.orders.getLast?) := by
  rcases finish_spec parsed with ⟨refusal, hfinish, hrefused⟩ | ⟨found, hfinish, hok, hhoisted⟩
  · refine ⟨iff_of_true ⟨refusal, hfinish⟩ hrefused, fun finished h => ?_⟩
    rw [hfinish] at h
    cases h
  · refine ⟨iff_of_false (fun h => ?_) hok, fun finished h => ?_⟩
    · obtain ⟨refusal, hrefusal⟩ := h
      rw [hfinish] at hrefusal
      cases hrefusal
    · rw [hfinish, Except.ok.injEq] at h
      rw [← h, promisedOrder_eq, hhoisted.order]
      exact ⟨hhoisted.limit, hhoisted.offset, getLastD_eq_headD_iff⟩

/-- An `and` child with controls of its own. -/
def latestFirst : Parsed :=
  .mk { } [{ field := field "timestamp" .timestamp, ascending := false }] (some 5) (some 2) [] []

/-- A limit beside the child's. -/
theorem limited_hoists : ∃ finished : Finished,
    (Parsed.mk { } [] (some 3) none [latestFirst] []).finish = .ok finished ∧
      finished.limit.map UInt64.toNat = [3, 5].min? ∧ finished.offset.map UInt64.toNat = [2].max? ∧
      finished.order = [{ field := field "timestamp" .timestamp, ascending := false }] := by
  refine ⟨_, rfl, ?_⟩
  obtain ⟨hlimit, hoffset, horder⟩ :=
    (finish_hoists_iff (Parsed.mk { } [] (some 3) none [latestFirst] [])).2 _ rfl
  exact ⟨hlimit, hoffset, horder.mpr rfl⟩

/-- An order beside the child's: the child's wins. -/
theorem earliest_loses : ∃ finished : Finished,
    (Parsed.mk { } [{ field := field "timestamp" .timestamp, ascending := true }] none none [latestFirst]
        []).finish = .ok finished ∧
      finished.order ≠ (Parsed.mk { } [{ field := field "timestamp" .timestamp, ascending := true }] none
        none [latestFirst] []).promisedOrder :=
  ⟨_, rfl, by decide⟩

end Ceres.Database
