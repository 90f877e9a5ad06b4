import Mathlib.Data.List.DropRight
import TableGraph.Proofs.Outcome
import TableGraph.Proofs.Page.Paging

/-!
# The items of a page

A page is what is left of a list after a few cuts: the cursors cut first, then `first` keeps items
from the front and `last` keeps items from the back. The program computes a window of places instead,
and each of its steps cuts the items of the window in the same way, also where the cursors cross or
name no item.
-/

namespace TableGraph.Page

variable {α : Type}

/-- The place in a list that a cursor names, if it names an item of the list. -/
def named? (length : Nat) (place : Option String) : Option Nat :=
  ((place.bind offset?).filter (holds length)).map Int.toNat

/-- At most the first items that are asked for. -/
def kept (count : Option Int) (es : List α) : List α :=
  match count with
  | none => es
  | some n => es.take n.toNat

/-- At most the last items that are asked for. -/
def keptBack (count : Option Int) (es : List α) : List α :=
  match count with
  | none => es
  | some n => es.rtake n.toNat

namespace Arguments

variable (a : Arguments) (items : List α)

/-- The items behind the one that `after` names and in front of the one that `before` names. -/
def left : List (Nat × α) :=
  (placed items).filter fun e =>
    (named? items.length a.after).all (· < e.1) && (named? items.length a.before).all (e.1 < ·)

/-- At most the first of these. -/
def front : List (Nat × α) := kept a.first (a.left items)

/-- At most the last of these. -/
def page : List (Nat × α) := keptBack a.last (a.front items)

/-- Whether a negative number of items is asked for. -/
def Negative : Prop := (∃ n, a.first = some n ∧ n < 0) ∨ ∃ n, a.last = some n ∧ n < 0

/-- Whether `first` leaves out items that the cursors leave. -/
def LeavesBehind : Prop := ∃ n, a.first = some n ∧ n < (a.left items).length

/-- Whether `last` leaves out items that `first` leaves. -/
def LeavesInFront : Prop := ∃ n, a.last = some n ∧ n < (a.front items).length

end Arguments

/-- The places that hold an item are those from the front of the list to its end. -/
theorem holds_iff {length : Nat} {o : Int} : holds length o = true ↔ 0 ≤ o ∧ o < length := by
  rw [holds, Bool.and_eq_true, decide_eq_true_iff, decide_eq_true_iff]

/-- A place that is named is one of the list. -/
theorem lt_of_named? {length i : Nat} {place : Option String} (h : named? length place = some i) :
    i < length := by
  obtain ⟨o, ho, rfl⟩ := Option.map_eq_some_iff.mp h
  have hinside := holds_iff.mp (Option.filter_eq_some_iff.mp ho).2
  omega

/-- The items from one place on and in front of another, with the places counted from `k` on. -/
theorem filter_zipIdx (l : List α) (k s e : Nat) :
    ((l.zipIdx k).filter fun x => decide (s ≤ x.2) && decide (x.2 < e))
      = ((l.zipIdx k).drop (s - k)).take (e - max s k) := by
  induction l generalizing k with
  | nil => simp
  | cons x l ih =>
    rw [List.zipIdx_cons, List.filter_cons, ih]
    by_cases hs : s ≤ k
    · have hskip : s - k = 0 := by omega
      have hskip' : s - (k + 1) = 0 := by omega
      have hmax : max s k = k := by omega
      have hmax' : max s (k + 1) = k + 1 := by omega
      rw [hskip, hskip', hmax, hmax', List.drop_zero, List.drop_zero]
      by_cases he : k < e
      · have hcount : e - k = e - (k + 1) + 1 := by omega
        rw [hcount, List.take_succ_cons, if_pos (by simp [hs, he])]
      · have hcount : e - k = 0 := by omega
        have hcount' : e - (k + 1) = 0 := by omega
        rw [hcount, hcount', if_neg (by simp [he])]
        rfl
    · have hskip : s - k = s - (k + 1) + 1 := by omega
      have hmax : max s (k + 1) = max s k := by omega
      rw [hskip, List.drop_succ_cons, hmax, if_neg (by simp [hs])]

/-- The items from one place on and in front of another. -/
theorem filter_placed (items : List α) (s e : Nat) :
    ((placed items).filter fun x => decide (s ≤ x.1) && decide (x.1 < e))
      = ((placed items).drop s).take (e - s) := by
  have hzip := filter_zipIdx items 0 s e
  rw [Nat.sub_zero, Nat.max_zero] at hzip
  rw [placed, List.filter_map, ← List.map_drop, ← List.map_take, ← hzip]
  rfl

namespace Window

/-- A window inside a list. -/
structure Within (w : Window) (length : Nat) : Prop where
  /-- It does not start in front of the list. -/
  start_nonneg : 0 ≤ w.start
  /-- It does not start behind the list. -/
  start_le : w.start ≤ length
  /-- It does not stop in front of the list. -/
  stop_nonneg : 0 ≤ w.stop
  /-- It does not stop behind the list. -/
  stop_le : w.stop ≤ length

variable {w : Window} {items : List α}

/-- There are as many items as places from the start to the stop of a window. -/
theorem Within.length_edges (h : w.Within items.length) :
    (w.edges items).length = (w.stop - w.start).toNat := by
  have hstart := h.start_nonneg
  have hstop := h.stop_le
  rw [edges_eq, List.length_take, List.length_drop, length_placed]
  omega

/-- The window with items kept from the front holds the first items. It stops earlier just when there
are more items than are kept. -/
theorem Within.keepFirst (h : w.Within items.length) {count : Option Int}
    (hcount : ∀ n, count = some n → 0 ≤ n) :
    ∃ w', w.keepFirst count = .ok w' ∧ w'.Within items.length ∧ w'.start = w.start
      ∧ w'.edges items = kept count (w.edges items)
      ∧ (w'.stop < w.stop ↔ ∃ n, count = some n ∧ n < (w.edges items).length) := by
  cases count with
  | none => exact ⟨w, rfl, h, rfl, rfl, by simp⟩
  | some n =>
    have hn : 0 ≤ n := hcount n rfl
    have hlength := h.length_edges
    obtain ⟨hstart, hstart', hstop, hstop'⟩ := h
    refine ⟨{ w with stop := min w.stop (w.start + n) }, if_neg (by omega), ?_, rfl, ?_, ?_⟩
    · exact ⟨hstart, hstart', by dsimp only; omega, by dsimp only; omega⟩
    · have htake : (min w.stop (w.start + n) - w.start).toNat
          = min n.toNat (w.stop - w.start).toNat := by omega
      rw [edges_eq, edges_eq, kept, List.take_take, htake]
    · simp only [Option.some.injEq, exists_eq_left']
      omega

/-- The window with items kept from the back holds the last items. It starts later just when there
are more items than are kept. -/
theorem Within.keepLast (h : w.Within items.length) {count : Option Int}
    (hcount : ∀ n, count = some n → 0 ≤ n) :
    ∃ w', w.keepLast count = .ok w' ∧ w'.Within items.length ∧ w'.stop = w.stop
      ∧ w'.edges items = keptBack count (w.edges items)
      ∧ (w.start < w'.start ↔ ∃ n, count = some n ∧ n < (w.edges items).length) := by
  cases count with
  | none => exact ⟨w, rfl, h, rfl, rfl, by simp⟩
  | some n =>
    have hn : 0 ≤ n := hcount n rfl
    have hlength := h.length_edges
    obtain ⟨hstart, hstart', hstop, hstop'⟩ := h
    refine ⟨{ w with start := max w.start (w.stop - n) }, if_neg (by omega), ?_, rfl, ?_, ?_⟩
    · exact ⟨by dsimp only; omega, by dsimp only; omega, hstop, hstop'⟩
    · have hskip : (max w.start (w.stop - n)).toNat
          = w.start.toNat + ((w.stop - w.start).toNat - n.toNat) := by omega
      have htake : (w.stop - max w.start (w.stop - n)).toNat
          = (w.stop - w.start).toNat - ((w.stop - w.start).toNat - n.toNat) := by omega
      rw [keptBack, List.rtake, hlength, edges_eq, edges_eq, List.drop_take, List.drop_drop,
        hskip, htake]
    · simp only [Option.some.injEq, exists_eq_left']
      omega

end Window

namespace Arguments

variable (a : Arguments) (items : List α)

/-- The window between the cursors starts behind the place that `after` names. -/
@[simp]
theorem between_start (length : Nat) :
    (a.between length).start = ((named? length a.after).elim 0 (· + 1) : Nat) := by
  unfold between afterOffset named?
  cases a.after.bind offset? with
  | none => rfl
  | some o =>
    cases hholds : holds length o with
    | false => simp [Option.filter, hholds]
    | true =>
      have ho := holds_iff.mp hholds
      simp [Option.filter, hholds, ho.1]

/-- The window between the cursors stops at the place that `before` names. -/
@[simp]
theorem between_stop (length : Nat) :
    (a.between length).stop = ((named? length a.before).getD length : Nat) := by
  unfold between beforeOffset named?
  cases a.before.bind offset? with
  | none => simp [holds]
  | some o =>
    cases hholds : holds length o with
    | false => simp [Option.filter, hholds]
    | true =>
      have ho := holds_iff.mp hholds
      simp [Option.filter, hholds, ho.1]

/-- The window between the cursors is one of the list. -/
theorem within_between (length : Nat) : (a.between length).Within length := by
  have hstart : (named? length a.after).elim 0 (· + 1) ≤ length := by
    cases hnamed : named? length a.after with
    | none => exact Nat.zero_le _
    | some i => exact lt_of_named? hnamed
  have hstop : (named? length a.before).getD length ≤ length := by
    cases hnamed : named? length a.before with
    | none => exact Nat.le_refl _
    | some i => exact Nat.le_of_lt (lt_of_named? hnamed)
  have hbetween := a.between_start length
  have hbetween' := a.between_stop length
  exact ⟨by omega, by omega, by omega, by omega⟩

/-- The window between the cursors holds the items that the cursors leave. -/
theorem edges_between : (a.between items.length).edges items = a.left items := by
  have hplaces : ∀ e ∈ placed items, (decide ((named? items.length a.after).elim 0 (· + 1) ≤ e.1)
      && decide (e.1 < (named? items.length a.before).getD items.length))
      = ((named? items.length a.after).all (· < e.1)
        && (named? items.length a.before).all (e.1 < ·)) := by
    intro e he
    have hlt : e.1 < items.length := fst_lt_of_mem_placed he
    have hafter : decide ((named? items.length a.after).elim 0 (· + 1) ≤ e.1)
        = (named? items.length a.after).all (· < e.1) := by
      cases named? items.length a.after with
      | none => simp
      | some i => rfl
    have hbefore : decide (e.1 < (named? items.length a.before).getD items.length)
        = (named? items.length a.before).all (e.1 < ·) := by
      cases named? items.length a.before with
      | none => simp [hlt]
      | some i => rfl
    rw [hafter, hbefore]
  have hcount : ∀ s e : Nat, ((e : Int) - s).toNat = e - s := by omega
  rw [Window.edges_eq, between_start, between_stop, Int.toNat_natCast, hcount, ← filter_placed,
    List.filter_congr hplaces, left]

variable {a}

/-- Unless a negative number of items is asked for, the window holds the items of the page. It stops
earlier than the one between the cursors just when `first` leaves out items, and starts later just
when `last` does. -/
theorem exists_window (h : ¬a.Negative) :
    ∃ w, a.window items.length = .ok w ∧ w.Within items.length ∧ w.edges items = a.page items
      ∧ (w.stop < (a.between items.length).stop ↔ a.LeavesBehind items)
      ∧ ((a.between items.length).start < w.start ↔ a.LeavesInFront items) := by
  have hfirst : ∀ n, a.first = some n → 0 ≤ n := fun n hn =>
    Int.not_lt.mp fun hneg => h (Or.inl ⟨n, hn, hneg⟩)
  have hlast : ∀ n, a.last = some n → 0 ≤ n := fun n hn =>
    Int.not_lt.mp fun hneg => h (Or.inr ⟨n, hn, hneg⟩)
  have hbetween : (a.between items.length).Within items.length := a.within_between items.length
  obtain ⟨w, hw, hwithin, hstart, hedges, hstop⟩ := hbetween.keepFirst hfirst
  obtain ⟨w', hw', hwithin', hstop', hedges', hstart'⟩ := hwithin.keepLast hlast
  rw [edges_between] at hedges hstop
  have hfront : w.edges items = a.front items := hedges
  rw [hfront] at hedges' hstart'
  refine ⟨w', bind_eq_ok_iff.mpr ⟨w, hw, hw'⟩, hwithin', hedges', ?_, ?_⟩
  · rw [hstop']
    exact hstop
  · rw [← hstart]
    exact hstart'

/-- There is no window when a negative number of items is asked for. -/
theorem window_ne_ok (h : a.Negative) (length : Nat) (w : Window) : a.window length ≠ .ok w := by
  intro hw
  obtain ⟨w', hw', hw⟩ := bind_eq_ok_iff.mp hw
  rcases h with ⟨n, hn, hneg⟩ | ⟨n, hn, hneg⟩
  · rw [hn, Window.keepFirst, if_pos hneg] at hw'
    cases hw'
  · rw [hn, Window.keepLast, if_pos hneg] at hw
    cases hw

end Arguments

/-- The cursor of an item names it. -/
theorem named?_cursor {length i : Nat} (hfits : i < 2 ^ 63) (h : i < length) :
    named? length (some (cursor i)) = some i := by
  have hholds : holds length (i : Int) = true := holds_iff.mpr (by omega)
  rw [named?, Option.bind_some, offset?_cursor hfits, Option.filter_some_pos hholds]
  rfl

/-- There is no connection when a negative number of items is asked for. -/
theorem exists_error_iff {items : List α} {a : Arguments} :
    (∃ e, Connection.ofList items a = .error e) ↔ a.Negative := by
  constructor
  · rintro ⟨e, he⟩
    by_contra hneg
    obtain ⟨w, hw, _⟩ := Arguments.exists_window items hneg
    rw [ofList_of_window hw] at he
    cases he
  · intro hneg
    cases hlist : Connection.ofList items a with
    | error e => exact ⟨e, rfl⟩
    | ok c =>
      obtain ⟨w, hw, _⟩ := bind_eq_ok_iff.mp hlist
      exact absurd hw (Arguments.window_ne_ok hneg _ w)

/-- The page of a list of values: it is refused just when a negative number of items is asked for.
Otherwise its edges are the items that the cuts leave, each with the cursor of its place in the whole
list, beside the length of the whole list and the cursors of the first and the last edge. -/
theorem connection_of_cuts (items : List Json) (a : Arguments) :
    ((∃ e, Connection.ofList items a = .error e) ↔ a.Negative)
      ∧ (¬a.Negative → ∃ c, Connection.ofList items a = .ok c ∧ c.edges = a.page items
        ∧ c.toJson = .obj [("total", .nat items.length),
          ("edges", .arr ((a.page items).map fun e =>
            .obj [("cursor", .str (cursor e.1)), ("node", e.2)])),
          ("pageInfo", .obj [
            ("startCursor", .ofOption .str ((a.page items).head?.map fun e => cursor e.1)),
            ("endCursor", .ofOption .str ((a.page items).getLast?.map fun e => cursor e.1)),
            ("hasPreviousPage", .bool c.hasPrevious), ("hasNextPage", .bool c.hasNext)])]) := by
  refine ⟨exists_error_iff, fun hneg => ?_⟩
  obtain ⟨w, hw, _, hedges, _⟩ := Arguments.exists_window items hneg
  refine ⟨_, ofList_of_window hw, hedges, ?_⟩
  rw [Connection.toJson, Connection.startCursor, Connection.endCursor, hedges]

/-- Five letters. -/
def letters : List Json := ["A", "B", "C", "D", "E"].map .str

/-- The page of two of the first three letters between `A` and `E`. -/
def innerLetters : Arguments where
  first := some 3
  after := some (cursor 0)
  last := some 2
  before := some (cursor 4)

/-- The page holds `C` and `D`. -/
theorem connection_of_cuts_letters : ¬innerLetters.Negative
    ∧ ∃ c, Connection.ofList letters innerLetters = .ok c
      ∧ c.edges = [(2, .str "C"), (3, .str "D")]
      ∧ (c.toJson.member? "pageInfo").bind (Json.member? "endCursor")
        = some (.str (cursor 3)) := by
  have hneg : ¬innerLetters.Negative := by simp [Arguments.Negative, innerLetters]
  have hafter : named? letters.length innerLetters.after = some 0 :=
    named?_cursor (by decide) (by decide)
  have hbefore : named? letters.length innerLetters.before = some 4 :=
    named?_cursor (by decide) (by decide)
  have hpage : innerLetters.page letters = [(2, .str "C"), (3, .str "D")] := by
    rw [Arguments.page, Arguments.front, Arguments.left, hafter, hbefore]
    rfl
  obtain ⟨c, hc, hedges, hjson⟩ := (connection_of_cuts letters innerLetters).2 hneg
  refine ⟨hneg, c, hc, hedges.trans hpage, ?_⟩
  rw [hjson, hpage]
  rfl

end TableGraph.Page
