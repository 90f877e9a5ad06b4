import Mathlib.Data.List.DropRight
import Mathlib.Logic.Function.Basic
import TableGraph.Graph.Handle

/-!
# Rebuilds side by side

Calls of rebuilds and readers share one handle. A call takes two steps under the lock, one when it
begins and one when it has come to its end, and the steps of calls and readers follow one another in any
order. What is served at a point of a run is told by the outcomes of the rebuilds that have come to
their end, the last one first, and by whether a rebuild has begun since.
-/

namespace TableGraph.Handle

variable {ι α : Type}

/-- How far a call of a rebuild has come. -/
inductive Phase where
  /-- It has not begun. -/
  | idle
  /-- It has begun. -/
  | running
  /-- It has come to its end. -/
  | done
  deriving DecidableEq, Repr

/-- A step of a call or of a reader. -/
inductive Moment (ι α : Type) where
  /-- A call begins to rebuild. -/
  | begins (call : ι)
  /-- A call has come to its end. -/
  | finishes (call : ι) (outcome : Except SchemaError α)
  /-- A reader asks what is served and is answered. -/
  | reads (answer : Except SchemaError α)

/-- The outcome of the call that has come to its end, if one has. -/
def Moment.outcome? : Moment ι α → Option (Except SchemaError α)
  | .begins _ => none
  | .finishes _ outcome => some outcome
  | .reads _ => none

/-- A handle with the calls that share it. -/
structure Shared (ι α : Type) where
  /-- The handle. -/
  handle : Handle α
  /-- How far each call has come. -/
  phase : ι → Phase

/-- A handle as it is made, with nothing to serve or with something, before any call. -/
def Shared.made (given : Option α) : Shared ι α where
  handle := match given with
    | none => .building
    | some served => .ready served
  phase := fun _ => .idle

section

variable [DecidableEq ι]

/-- The steps that can be taken: a call begins once, and comes to its end once after it has begun. -/
inductive Step : Shared ι α → Moment ι α → Shared ι α → Prop
  /-- A call begins. -/
  | begins {w : Shared ι α} {call : ι} (hidle : w.phase call = .idle) :
    Step w (.begins call) ⟨w.handle.step .begun, Function.update w.phase call .running⟩
  /-- A call comes to its end. -/
  | finishes {w : Shared ι α} {call : ι} (outcome : Except SchemaError α)
    (hrunning : w.phase call = .running) :
    Step w (.finishes call outcome)
      ⟨w.handle.step (.finished outcome), Function.update w.phase call .done⟩
  /-- A reader is answered. -/
  | reads {w : Shared ι α} : Step w (.reads w.handle.current) w

/-- The points that can be reached from a handle as it is made, with the steps up to them. -/
inductive Run (given : Option α) : List (Moment ι α) → Shared ι α → Prop
  /-- Nothing has happened. -/
  | made : Run given [] (.made given)
  /-- One more step. -/
  | step {history : List (Moment ι α)} {w w' : Shared ι α} {m : Moment ι α}
    (run : Run given history w) (hstep : Step w m w') : Run given (history ++ [m]) w'

end

/-- The outcome of the rebuild that has come to its end last. -/
def lastOutcome? (history : List (Moment ι α)) : Option (Except SchemaError α) :=
  (history.filterMap Moment.outcome?).getLast?

/-- The steps since a rebuild has come to its end last. -/
def since (history : List (Moment ι α)) : List (Moment ι α) :=
  history.rtakeWhile fun m => m.outcome?.isNone

/-- What is to be served: the result of the last rebuild, or what the handle was made with while none has
come to its end. -/
def Serves (given : Option α) (history : List (Moment ι α)) (served : α) : Prop :=
  lastOutcome? history = some (.ok served) ∨ (lastOutcome? history = none ∧ given = some served)

/-- The last rebuild has failed, and none has begun since. -/
def HasFailed (history : List (Moment ι α)) (e : SchemaError) : Prop :=
  lastOutcome? history = some (.error e) ∧ ∀ call, .begins call ∉ since history

/-- A handle is as the history tells. -/
def Explained (given : Option α) (history : List (Moment ι α)) : Handle α → Prop
  | .ready served => Serves given history served
  | .failed reason => ∃ e, HasFailed history e ∧ reason = e.message
  | .building => (∀ served, ¬ Serves given history served) ∧ ∀ e, ¬ HasFailed history e

section

variable {given : Option α} {history : List (Moment ι α)} {m : Moment ι α}

/-- The last outcome is that of the last step, if it is the end of a rebuild. -/
@[simp]
theorem lastOutcome?_concat :
    lastOutcome? (history ++ [m]) = m.outcome?.or (lastOutcome? history) := by
  cases h : m.outcome? with
  | none => simp [lastOutcome?, List.filterMap_append, h]
  | some outcome => simp [lastOutcome?, List.filterMap_append, h]

/-- Nothing has happened since a rebuild that has just come to its end; any other step has. -/
@[simp]
theorem since_concat :
    since (history ++ [m]) = if m.outcome?.isNone then since history ++ [m] else [] := by
  by_cases h : m.outcome?.isNone = true
  · rw [since, List.rtakeWhile_concat_pos (fun m => m.outcome?.isNone) history m h, if_pos h, since]
  · rw [since, List.rtakeWhile_concat_neg (fun m => m.outcome?.isNone) history m h, if_neg h]

/-- Only one thing is to be served. -/
theorem Serves.unique {a b : α} (ha : Serves given history a) (hb : Serves given history b) :
    a = b := by
  rcases ha with ha | ⟨ha, hga⟩
  · rcases hb with hb | ⟨hb, _⟩
    · simpa [ha] using hb
    · simp [ha] at hb
  · rcases hb with hb | ⟨_, hgb⟩
    · simp [ha] at hb
    · simpa [hga] using hgb

/-- The last rebuild has failed for one reason. -/
theorem HasFailed.unique {e e' : SchemaError} (h : HasFailed history e) (h' : HasFailed history e') :
    e = e' := by
  simpa [h.1] using h'.1

/-- Nothing is to be served after a failure. -/
theorem HasFailed.not_serves {e : SchemaError} (h : HasFailed history e) (served : α) :
    ¬ Serves given history served := by
  rintro (hs | ⟨hs, _⟩)
  · simp [h.1] at hs
  · simp [h.1] at hs

/-- What a handle serves is what is to be served. -/
theorem Explained.current_eq_ok_iff {h : Handle α} (he : Explained given history h) (served : α) :
    h.current = .ok served ↔ Serves given history served := by
  cases h with
  | ready a =>
    constructor
    · intro hc
      cases hc
      exact he
    · intro hs
      rw [Serves.unique he hs]
      rfl
  | failed reason =>
    obtain ⟨e, hf, rfl⟩ := he
    exact iff_of_false nofun (hf.not_serves served)
  | building => exact iff_of_false nofun (he.1 served)

/-- A handle is as the history tells before any step. -/
theorem explained_made :
    Explained given ([] : List (Moment ι α)) (Shared.made given : Shared ι α).handle := by
  cases given with
  | none => simp [Shared.made, Explained, Serves, HasFailed, lastOutcome?]
  | some served => simp [Shared.made, Explained, Serves, lastOutcome?]

/-- Beginning to rebuild keeps what is served and clears a failure. -/
theorem Explained.begins {h : Handle α} (he : Explained given history h) (call : ι) :
    Explained given (history ++ [.begins call]) (h.step .begun) := by
  have hserves : ∀ served, Serves given (history ++ [.begins call]) served
      ↔ Serves given history served := by
    simp [Serves, Moment.outcome?]
  have hfailed : ∀ e, ¬ HasFailed (history ++ [.begins call]) e := by
    rintro e ⟨_, hnone⟩
    exact hnone call (by simp [Moment.outcome?])
  cases h with
  | ready served => exact (hserves served).mpr he
  | failed reason =>
    obtain ⟨e, hf, rfl⟩ := he
    exact ⟨fun served hs => hf.not_serves served ((hserves served).mp hs), hfailed⟩
  | building => exact ⟨fun served hs => he.1 served ((hserves served).mp hs), hfailed⟩

/-- The end of a rebuild puts its outcome in place of whatever was there. -/
theorem explained_finishes (call : ι) (outcome : Except SchemaError α) :
    Explained given (history ++ [.finishes call outcome]) (finish outcome) := by
  cases outcome with
  | ok served => simp [finish, Explained, Serves, Moment.outcome?]
  | error e => exact ⟨e, by simp [HasFailed, Moment.outcome?], rfl⟩

/-- Reading changes nothing. -/
theorem Explained.reads {h : Handle α} (he : Explained given history h)
    (answer : Except SchemaError α) : Explained given (history ++ [.reads answer]) h := by
  have hserves : ∀ served, Serves given (history ++ [.reads answer]) served
      ↔ Serves given history served := by
    simp [Serves, Moment.outcome?]
  have hfailed : ∀ e, HasFailed (history ++ [.reads answer]) e ↔ HasFailed history e := by
    simp [HasFailed, Moment.outcome?]
  cases h with
  | ready served => exact (hserves served).mpr he
  | failed reason =>
    obtain ⟨e, hf, rfl⟩ := he
    exact ⟨e, (hfailed e).mpr hf, rfl⟩
  | building =>
    exact ⟨fun served hs => he.1 served ((hserves served).mp hs),
      fun e hf => he.2 e ((hfailed e).mp hf)⟩

variable [DecidableEq ι]

/-- A step leaves the handle as the history tells. -/
theorem Step.explained {w w' : Shared ι α} (h : Step w m w') (he : Explained given history w.handle) :
    Explained given (history ++ [m]) w'.handle := by
  cases h with
  | begins _ => exact he.begins _
  | finishes outcome _ => exact explained_finishes _ outcome
  | reads => exact he.reads _

/-- At every point of a run the handle is as the history tells. -/
theorem Run.explained {w : Shared ι α} (h : Run given history w) :
    Explained given history w.handle := by
  induction h with
  | made => exact explained_made
  | step _ hstep ih => exact hstep.explained ih

/-- A reader is answered with what the handle serves at that point of the run. -/
theorem Run.answered {w : Shared ι α} (h : Run given history w) :
    ∀ before answer after, history = before ++ .reads answer :: after →
      ∃ w', Run given before w' ∧ answer = w'.handle.current := by
  induction h with
  | made =>
    intro before answer after he
    exact absurd he (by simp)
  | @step history w w' m run hstep ih =>
    intro before answer after he
    rcases List.eq_nil_or_concat after with rfl | ⟨after, x, rfl⟩
    · obtain ⟨rfl, hm⟩ := List.append_inj' he rfl
      obtain rfl := List.cons.inj hm |>.1
      cases hstep
      exact ⟨w, run, rfl⟩
    · have hcut : history ++ [m] = (before ++ .reads answer :: after) ++ [x] := by
        rw [he, List.concat_eq_append, List.append_assoc, List.cons_append]
      exact ih before answer after (List.append_inj' hcut rfl).1

/-- At every point of every run, what is served is the result of the rebuild that has come to its end
last, or what the handle was made with while none has. Otherwise nothing is served: the handle is failed
with the reason of the last rebuild if none has begun since, and building in every other case. Readers
are answered accordingly, and beginning to rebuild takes nothing away. -/
theorem current_of_run {w : Shared ι α} (h : Run given history w) :
    (∀ served, w.handle.current = .ok served ↔ Serves given history served)
      ∧ ((∀ served, ¬ Serves given history served) →
        (∃ text, w.handle.current = .error (.unavailable text))
          ∧ (∀ e, HasFailed history e → w.handle = .failed e.message)
          ∧ ((∀ e, ¬ HasFailed history e) → w.handle = .building))
      ∧ (∀ before answer after, history = before ++ .reads answer :: after →
        ∀ served, answer = .ok served ↔ Serves given before served)
      ∧ ∀ call w', Step w (.begins call) w' →
        ∀ served, w.handle.current = .ok served → w'.handle.current = .ok served := by
  have he := h.explained
  refine ⟨he.current_eq_ok_iff, ?_, ?_, ?_⟩
  · intro hnone
    cases hw : w.handle with
    | ready served =>
      rw [hw] at he
      exact absurd he (hnone served)
    | failed reason =>
      rw [hw] at he
      obtain ⟨e, hf, rfl⟩ := he
      refine ⟨⟨_, rfl⟩, fun e' hf' => ?_, fun hno => absurd hf (hno e)⟩
      rw [hf.unique hf']
    | building =>
      rw [hw] at he
      exact ⟨⟨_, rfl⟩, fun e hf => absurd hf (he.2 e), fun _ => rfl⟩
  · intro before answer after hsplit served
    obtain ⟨w', run, rfl⟩ := h.answered before answer after hsplit
    exact run.explained.current_eq_ok_iff served
  · intro call w' hstep served hc
    have hs : Serves given history served := (he.current_eq_ok_iff served).mp hc
    rw [(hstep.explained he).current_eq_ok_iff]
    simpa [Serves, Moment.outcome?] using hs

end

/-- Two calls that overlap: the second one succeeds first, and a reader is answered with its result until
the first one fails. -/
theorem current_of_run_overlapping :
    ∃ w : Shared Nat String,
      Run none [.begins 0, .begins 1, .finishes 1 (.ok "second"), .reads (.ok "second"),
        .finishes 0 (.error .noTables)] w
      ∧ w.handle = .failed "no tables found in database"
      ∧ Serves none [.begins 0, .begins 1, .finishes 1 (.ok "second")] "second" := by
  have hrun : Run (none : Option String) [.begins 0, .begins 1, .finishes 1 (.ok "second"),
      .reads (.ok "second"), .finishes 0 (.error .noTables)] _ :=
    .step (.step (.step (.step (.step .made (.begins rfl)) (.begins rfl))
      (.finishes (.ok "second") rfl)) .reads) (.finishes (.error .noTables) rfl)
  obtain ⟨_, hfailed, hreads, _⟩ := current_of_run hrun
  have hlast : HasFailed ([.begins 0, .begins 1, .finishes 1 (.ok "second"), .reads (.ok "second"),
      .finishes 0 (.error .noTables)] : List (Moment Nat String)) .noTables := by
    exact ⟨rfl, fun call h => by cases h⟩
  exact ⟨_, hrun, (hfailed hlast.not_serves).2.1 .noTables hlast,
    (hreads [.begins 0, .begins 1, .finishes 1 (.ok "second")] (.ok "second") _ rfl "second").mp rfl⟩

end TableGraph.Handle
