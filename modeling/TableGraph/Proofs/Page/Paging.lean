import Mathlib.Algebra.Order.Floor.Div
import TableGraph.Page.Connection
import TableGraph.Proofs.Page.Cursor

/-!
# Paging through a list

A list is read page by page, from the front with the cursor of the last item of a page, or from the
back with the cursor of the first one. What carries both is the number of items that are left: a page
takes as many of them as it may hold, tells whether there are more, and leads on to the rest.
-/

namespace TableGraph.Page

variable {α : Type}

/-- Pages asked for one after another: the first one at a cursor or at an end of the list, each next
one where the one before leads on, up to the first one behind which there are no more. -/
inductive Paged (ask : Option String → Except RequestError (Connection α))
    (more : Connection α → Bool) (next : Connection α → Option String) :
    Option String → List (Connection α) → Prop
  /-- A page behind which there are no more. -/
  | last {place : Option String} {c : Connection α} (hask : ask place = .ok c)
    (hmore : more c = false) : Paged ask more next place [c]
  /-- A page behind which there are more. -/
  | step {place : Option String} {c : Connection α} {cs : List (Connection α)}
    (hask : ask place = .ok c) (hmore : more c = true) (rest : Paged ask more next (next c) cs) :
    Paged ask more next place (c :: cs)

/-- The page of at most `k` items behind a cursor, or at the front of the list. -/
def frontPage (items : List α) (k : Nat) (after : Option String) :
    Except RequestError (Connection α) :=
  Connection.ofList items { first := some (k : Int), after := after }

/-- The page of at most `k` items in front of a cursor, or at the back of the list. -/
def backPage (items : List α) (k : Nat) (before : Option String) :
    Except RequestError (Connection α) :=
  Connection.ofList items { last := some (k : Int), before := before }

/-- The items of a list with their places. -/
def placed (items : List α) : List (Nat × α) := items.zipIdx.map fun x => (x.2, x.1)

/-- There are as many places as items. -/
@[simp]
theorem length_placed (items : List α) : (placed items).length = items.length := by
  rw [placed, List.length_map, List.length_zipIdx]

/-- The place of an item. -/
theorem placed_getElem? {items : List α} {i : Nat} (h : i < items.length) :
    ∃ x, (placed items)[i]? = some (i, x) :=
  ⟨items[i], by simp [placed, h]⟩

/-- The place of an item lies in the list. -/
theorem fst_lt_of_mem_placed {items : List α} {e : Nat × α} (h : e ∈ placed items) :
    e.1 < items.length := by
  obtain ⟨x, hx, rfl⟩ := List.mem_map.mp h
  exact List.snd_lt_of_mem_zipIdx hx

/-- The items of a window stand in the list from its start on. -/
theorem Window.edges_eq (w : Window) (items : List α) :
    w.edges items = ((placed items).drop w.start.toNat).take (w.stop - w.start).toNat := by
  unfold edges
  split
  next h => rw [placed, ← List.map_drop, ← List.map_take]
  next h =>
    have hlength : (w.stop - w.start).toNat = 0 := by omega
    rw [hlength, List.take_zero]

/-- The items of a window given by places of the list. -/
theorem edges_window (items : List α) (s e : Nat) :
    Window.edges ⟨s, e⟩ items = ((placed items).drop s).take (e - s) := by
  have hlength : ((e : Int) - (s : Int)).toNat = e - s := by omega
  rw [Window.edges_eq, hlength, Int.toNat_natCast]

/-- The connection of a window. An argument that is left out bounds the flags like a foreign
cursor. -/
theorem ofList_of_window {items : List α} {a : Arguments} {w : Window}
    (h : a.window items.length = .ok w) :
    Connection.ofList items a = .ok
      { total := items.length
        edges := w.edges items
        hasPrevious := a.last.isSome && decide (a.afterOffset + 1 < w.start)
        hasNext := a.first.isSome && decide (w.stop < a.beforeOffset items.length) } := by
  have hlower : (if a.after.isSome then a.afterOffset + 1 else 0) = a.afterOffset + 1 := by
    unfold Arguments.afterOffset
    cases a.after <;> rfl
  have hupper : (if a.before.isSome then a.beforeOffset items.length else (items.length : Int))
      = a.beforeOffset items.length := by
    unfold Arguments.beforeOffset
    cases a.before <;> rfl
  rw [Connection.ofList, h]
  simp only [hlower, hupper]
  rfl

section

variable {ask : Option String → Except RequestError (Connection α)} {more : Connection α → Bool}
  {next : Connection α → Option String}

/-- There is one way to ask for the pages. -/
theorem Paged.unique {place : Option String} {cs cs' : List (Connection α)}
    (h : Paged ask more next place cs) (h' : Paged ask more next place cs') : cs = cs' := by
  induction h generalizing cs' with
  | last hask hmore =>
    cases h' with
    | last hask' hmore' => rw [Except.ok.inj (hask.symm.trans hask')]
    | step hask' hmore' =>
      rw [Except.ok.inj (hask.symm.trans hask'), hmore'] at hmore
      cases hmore
  | step hask hmore _ ih =>
    cases h' with
    | last hask' hmore' =>
      rw [Except.ok.inj (hask.symm.trans hask'), hmore'] at hmore
      cases hmore
    | step hask' hmore' rest' =>
      obtain rfl := Except.ok.inj (hask.symm.trans hask')
      rw [ih rest']

/-- Pages of at most `k` items, by the number of items that are left, at most `n`. -/
structure Leads (ask : Option String → Except RequestError (Connection α))
    (more : Connection α → Bool) (next : Connection α → Option String) (k n : Nat)
    (place : Nat → Option String) (page : Nat → Connection α) : Prop where
  /-- What is asked for is the page. -/
  ask : ∀ r ≤ n, ask (place r) = .ok (page r)
  /-- There are more behind it when it does not hold all that are left. -/
  more : ∀ r ≤ n, more (page r) = decide (k < r)
  /-- It leads on to those it does not hold. -/
  next : ∀ r ≤ n, k < r → next (page r) = place (r - k)

/-- One page less is needed for the items that a page leaves. -/
theorem max_one_ceilDiv {k r : Nat} (hk : 0 < k) (h : k < r) :
    max 1 (r ⌈/⌉ k) = max 1 ((r - k) ⌈/⌉ k) + 1 := by
  have hdiv : (r + k - 1) / k = (r - k + k - 1) / k + 1 := by
    rw [← Nat.add_div_right _ hk]
    congr 1
    omega
  have hpos : 0 < (r - k + k - 1) / k := Nat.div_pos (by omega) hk
  rw [Nat.ceilDiv_eq_add_pred_div, Nat.ceilDiv_eq_add_pred_div, hdiv]
  omega

/-- The pages come to an end, and what the last page has and each page in front of others keeps, the
pages have. -/
theorem Leads.exists_paged {k n : Nat} {place : Nat → Option String} {page : Nat → Connection α}
    (h : Leads ask more next k n place page) (hk : 0 < k)
    (P : Nat → List (Connection α) → Prop) (hlast : ∀ r ≤ n, r ≤ k → P r [page r])
    (hstep : ∀ r ≤ n, k < r → ∀ cs, P (r - k) cs → P r (page r :: cs)) {r : Nat} (hr : r ≤ n) :
    ∃ cs, Paged ask more next (place r) cs ∧ cs.length = max 1 (r ⌈/⌉ k) ∧ P r cs := by
  -- Every page but the last one takes `k` of the items that are left.
  induction r using Nat.strong_induction_on with
  | h r ih =>
    by_cases hlt : k < r
    · obtain ⟨cs, hcs, hlength, hP⟩ := ih (r - k) (by omega) (by omega)
      have hmore : more (page r) = true := by rw [h.more r hr, decide_eq_true hlt]
      refine ⟨page r :: cs, .step (h.ask r hr) hmore ?_, ?_, hstep r hr hlt cs hP⟩
      · rw [h.next r hr hlt]
        exact hcs
      · rw [List.length_cons, hlength, max_one_ceilDiv hk hlt]
    · have hmore : more (page r) = false := by rw [h.more r hr, decide_eq_false hlt]
      refine ⟨[page r], .last (h.ask r hr) hmore, ?_, hlast r hr (by omega)⟩
      have hdiv : (r + k - 1) / k < 2 := (Nat.div_lt_iff_lt_mul hk).mpr (by omega)
      rw [Nat.ceilDiv_eq_add_pred_div, List.length_singleton]
      omega

end

variable (items : List α)

/-- The cursor behind which a number of items is left. -/
def afterPlace (r : Nat) : Option String :=
  if r < items.length then some (cursor (items.length - r - 1)) else none

/-- The page of the first `k` items of those that are left. -/
def frontConnection (k r : Nat) : Connection α where
  total := items.length
  edges := ((placed items).drop (items.length - r)).take k
  hasPrevious := false
  hasNext := decide (k < r)

/-- The cursor in front of which a number of items is left. -/
def beforePlace (r : Nat) : Option String :=
  if r < items.length then some (cursor r) else none

/-- The page of the last `k` items of those that are left. -/
def backConnection (k r : Nat) : Connection α where
  total := items.length
  edges := ((placed items).take r).drop (r - k)
  hasPrevious := decide (k < r)
  hasNext := false

variable {items} {k : Nat}

/-- The items behind a cursor. -/
theorem between_afterPlace (hfits : items.length ≤ 2 ^ 63) {r : Nat} (hr : r ≤ items.length)
    (first : Option Int) :
    Arguments.between { first := first, after := afterPlace items r } items.length
      = ⟨(items.length - r : Nat), items.length⟩ := by
  unfold afterPlace
  split
  next h =>
    have hoffset : offset? (cursor (items.length - r - 1))
        = some ((items.length - r - 1 : Nat) : Int) := offset?_cursor (by omega)
    simp [Arguments.between, Arguments.afterOffset, Arguments.beforeOffset, holds, hoffset]
    omega
  next h =>
    obtain rfl : r = items.length := by omega
    simp [Arguments.between, Arguments.afterOffset, Arguments.beforeOffset, holds]

/-- The page of a window that `first` cuts. -/
theorem frontPage_of_window {after : Option String} {s e : Nat}
    (h : Arguments.window { first := some (k : Int), after := after } items.length = .ok ⟨s, e⟩) :
    frontPage items k after = .ok ⟨items.length, ((placed items).drop s).take (e - s), false,
      decide (e < items.length)⟩ := by
  rw [frontPage, ofList_of_window h, edges_window]
  simp [Arguments.beforeOffset]

/-- The page of a window that `last` cuts. -/
theorem backPage_of_window {before : Option String} {s e : Nat}
    (h : Arguments.window { last := some (k : Int), before := before } items.length = .ok ⟨s, e⟩) :
    backPage items k before = .ok ⟨items.length, ((placed items).drop s).take (e - s),
      decide (0 < s), false⟩ := by
  rw [backPage, ofList_of_window h, edges_window]
  simp [Arguments.afterOffset]

/-- The page behind a cursor. -/
theorem frontPage_afterPlace (hfits : items.length ≤ 2 ^ 63) {r : Nat} (hr : r ≤ items.length) :
    frontPage items k (afterPlace items r) = .ok (frontConnection items k r) := by
  have hstop : min (items.length : Int) ((items.length - r : Nat) + k)
      = (min items.length (items.length - r + k) : Nat) := by omega
  have hwindow : Arguments.window { first := some (k : Int), after := afterPlace items r }
      items.length = .ok ⟨(items.length - r : Nat), (min items.length (items.length - r + k) : Nat)⟩ := by
    rw [Arguments.window, between_afterPlace hfits hr, Window.keepFirst, if_neg (by omega), hstop]
    rfl
  have hcount : min items.length (items.length - r + k) - (items.length - r)
      = min k ((placed items).drop (items.length - r)).length := by
    rw [List.length_drop, length_placed]
    omega
  have hnext : min items.length (items.length - r + k) < items.length ↔ k < r := by omega
  rw [frontPage_of_window hwindow, frontConnection, hcount, ← List.take_eq_take_min]
  simp only [hnext]

/-- The items in front of a cursor. -/
theorem between_beforePlace (hfits : items.length ≤ 2 ^ 63) {r : Nat} (hr : r ≤ items.length)
    (last : Option Int) :
    Arguments.between { last := last, before := beforePlace items r } items.length = ⟨0, r⟩ := by
  unfold beforePlace
  split
  next h =>
    have hoffset : offset? (cursor r) = some (r : Int) := offset?_cursor (by omega)
    simp [Arguments.between, Arguments.afterOffset, Arguments.beforeOffset, holds, hoffset, h]
  next h =>
    obtain rfl : r = items.length := by omega
    simp [Arguments.between, Arguments.afterOffset, Arguments.beforeOffset, holds]

/-- The page in front of a cursor. -/
theorem backPage_beforePlace (hfits : items.length ≤ 2 ^ 63) {r : Nat} (hr : r ≤ items.length) :
    backPage items k (beforePlace items r) = .ok (backConnection items k r) := by
  have hstart : max (0 : Int) (r - k) = (r - k : Nat) := by omega
  have hwindow : Arguments.window { last := some (k : Int), before := beforePlace items r }
      items.length = .ok ⟨(r - k : Nat), r⟩ := by
    rw [Arguments.window, between_beforePlace hfits hr]
    simp only [Window.keepFirst, bind, Except.bind, Window.keepLast]
    rw [if_neg (by omega), hstart]
  have hprevious : 0 < r - k ↔ k < r := by omega
  rw [backPage_of_window hwindow, backConnection, List.take_drop]
  have hsum : r - k + (r - (r - k)) = r := by omega
  simp only [hprevious, hsum]

/-- The pages from the front lead on to one another. -/
theorem leads_front (hfits : items.length ≤ 2 ^ 63) (hk : 0 < k) :
    Leads (frontPage items k) Connection.hasNext Connection.endCursor k items.length
      (afterPlace items) (frontConnection items k) where
  ask := fun _ hr => frontPage_afterPlace hfits hr
  more := fun _ _ => rfl
  next := by
    intro r hr hlt
    have hlast : items.length - r + (k - 1) < items.length := by omega
    obtain ⟨x, hx⟩ := placed_getElem? hlast
    have hlength : (((placed items).drop (items.length - r)).take k).length = k := by
      rw [List.length_take, List.length_drop, length_placed]
      omega
    rw [Connection.endCursor, frontConnection, List.getLast?_eq_getElem?, hlength,
      List.getElem?_take_of_lt (by omega), List.getElem?_drop, hx, Option.map_some, afterPlace,
      if_pos (by omega)]
    congr 2
    omega

/-- The pages from the back lead on to one another. -/
theorem leads_back (hfits : items.length ≤ 2 ^ 63) (hk : 0 < k) :
    Leads (backPage items k) Connection.hasPrevious Connection.startCursor k items.length
      (beforePlace items) (backConnection items k) where
  ask := fun _ hr => backPage_beforePlace hfits hr
  more := fun _ _ => rfl
  next := by
    intro r hr hlt
    have hfirst : r - k < items.length := by omega
    obtain ⟨x, hx⟩ := placed_getElem? hfirst
    rw [Connection.startCursor, backConnection, List.head?_drop, List.getElem?_take_of_lt (by omega),
      hx, Option.map_some, beforePlace, if_pos hfirst]

/-- The pages from the front hold the items in order. -/
theorem exists_paged_front (hfits : items.length ≤ 2 ^ 63) (hk : 0 < k) :
    ∃ cs, Paged (frontPage items k) Connection.hasNext Connection.endCursor none cs
      ∧ cs.length = max 1 (items.length ⌈/⌉ k) ∧ cs.flatMap Connection.edges = placed items := by
  have hlast : ∀ r ≤ items.length, r ≤ k → [frontConnection items k r].flatMap Connection.edges
      = (placed items).drop (items.length - r) := by
    intro r hr hle
    rw [List.flatMap_singleton, frontConnection, List.take_of_length_le]
    rw [List.length_drop, length_placed]
    omega
  have hstep : ∀ r ≤ items.length, k < r → ∀ cs : List (Connection α),
      cs.flatMap Connection.edges = (placed items).drop (items.length - (r - k)) →
      (frontConnection items k r :: cs).flatMap Connection.edges
        = (placed items).drop (items.length - r) := by
    intro r hr hlt cs hcs
    have hrest : items.length - (r - k) = items.length - r + k := by omega
    rw [List.flatMap_cons, hcs, frontConnection, hrest, ← List.drop_drop, List.take_append_drop]
  obtain ⟨cs, hcs, hcount, hedges⟩ :=
    (leads_front hfits hk).exists_paged hk
      (fun r cs => cs.flatMap Connection.edges = (placed items).drop (items.length - r)) hlast hstep
      (Nat.le_refl _)
  rw [afterPlace, if_neg (Nat.lt_irrefl _)] at hcs
  rw [Nat.sub_self, List.drop_zero] at hedges
  exact ⟨cs, hcs, hcount, hedges⟩

/-- The pages from the back hold the items in order, the last page first. -/
theorem exists_paged_back (hfits : items.length ≤ 2 ^ 63) (hk : 0 < k) :
    ∃ cs, Paged (backPage items k) Connection.hasPrevious Connection.startCursor none cs
      ∧ cs.length = max 1 (items.length ⌈/⌉ k)
      ∧ cs.reverse.flatMap Connection.edges = placed items := by
  have hlast : ∀ r ≤ items.length, r ≤ k →
      [backConnection items k r].reverse.flatMap Connection.edges = (placed items).take r := by
    intro r hr hle
    have hnone : r - k = 0 := by omega
    rw [List.reverse_singleton, List.flatMap_singleton, backConnection, hnone, List.drop_zero]
  have hstep : ∀ r ≤ items.length, k < r → ∀ cs : List (Connection α),
      cs.reverse.flatMap Connection.edges = (placed items).take (r - k) →
      (backConnection items k r :: cs).reverse.flatMap Connection.edges
        = (placed items).take r := by
    intro r hr hlt cs hcs
    have hrest : (placed items).take (r - k) = ((placed items).take r).take (r - k) := by
      rw [List.take_take, Nat.min_eq_left (Nat.sub_le r k)]
    rw [List.reverse_cons, List.flatMap_append, hcs, List.flatMap_singleton, backConnection, hrest,
      List.take_append_drop]
  obtain ⟨cs, hcs, hcount, hedges⟩ :=
    (leads_back hfits hk).exists_paged hk
      (fun r cs => cs.reverse.flatMap Connection.edges = (placed items).take r) hlast hstep
      (Nat.le_refl _)
  rw [beforePlace, if_neg (Nat.lt_irrefl _)] at hcs
  rw [← length_placed, List.take_length] at hedges
  exact ⟨cs, hcs, hcount, hedges⟩

/-- Reading a list page by page, from the front by the last cursor of each page or from the back by the
first one, comes to an end after as many pages as are needed for the items, and visits each item once:
the pages hold the items in order, those from the back from the last page on. -/
theorem paging_visits_once (items : List α) (k : Nat) (hk : 1 ≤ k)
    (hfits : items.length + k < 2 ^ 63) :
    (∃ cs, (∀ cs', Paged (frontPage items k) Connection.hasNext Connection.endCursor none cs'
        ↔ cs' = cs)
      ∧ cs.length = max 1 (items.length ⌈/⌉ k) ∧ cs.flatMap Connection.edges = placed items)
    ∧ ∃ cs, (∀ cs', Paged (backPage items k) Connection.hasPrevious Connection.startCursor none cs'
        ↔ cs' = cs)
      ∧ cs.length = max 1 (items.length ⌈/⌉ k)
      ∧ cs.reverse.flatMap Connection.edges = placed items := by
  have hlength : items.length ≤ 2 ^ 63 := by omega
  obtain ⟨cs, hcs, hfront⟩ := exists_paged_front hlength hk
  obtain ⟨ds, hds, hback⟩ := exists_paged_back hlength hk
  refine ⟨⟨cs, fun cs' => ⟨fun h => h.unique hcs, ?_⟩, hfront⟩,
    ⟨ds, fun ds' => ⟨fun h => h.unique hds, ?_⟩, hback⟩⟩
  · rintro rfl
    exact hcs
  · rintro rfl
    exact hds

/-- Five items are read two by two in three pages, from either end. -/
theorem paging_visits_letters :
    ∃ cs ds, Paged (frontPage ["A", "B", "C", "D", "E"] 2) Connection.hasNext Connection.endCursor
        none cs
      ∧ Paged (backPage ["A", "B", "C", "D", "E"] 2) Connection.hasPrevious Connection.startCursor
        none ds
      ∧ cs.length = 3 ∧ ds.length = 3
      ∧ cs.flatMap Connection.edges = [(0, "A"), (1, "B"), (2, "C"), (3, "D"), (4, "E")]
      ∧ ds.reverse.flatMap Connection.edges = [(0, "A"), (1, "B"), (2, "C"), (3, "D"), (4, "E")] := by
  obtain ⟨⟨cs, hcs, hcount, hedges⟩, ds, hds, hcount', hedges'⟩ :=
    paging_visits_once ["A", "B", "C", "D", "E"] 2 (by decide) (by decide)
  exact ⟨cs, ds, (hcs cs).mpr rfl, (hds ds).mpr rfl, hcount, hcount', hedges, hedges'⟩

end TableGraph.Page
