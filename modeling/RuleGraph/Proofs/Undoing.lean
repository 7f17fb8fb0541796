import RuleGraph.Proofs.Relayouts
import RuleGraph.Proofs.Runs

/-!
# Going back

Whatever change is granted can be undone: the undo shows the graph again, and has the history and
the log again, of the session in which the change was asked for. A run of changes, undos and refused
requests therefore keeps a stack of sessions to go back to, one for each change that stands
(`Session.Changed`), and undoing all of them leads back to what the first session had.
-/

namespace RuleGraph

namespace Session

variable {first session next other : Session} {standing : List Session}

/-- The sessions show one graph, and have one history and one log. What is spent of the supply may
differ. -/
structure Shows (session other : Session) : Prop where
  graph_eq : session.graph = other.graph
  history_eq : session.history = other.history
  log_eq : session.log = other.log

theorem Shows.refl (session : Session) : session.Shows session :=
  ⟨rfl, rfl, rfl⟩

theorem Shows.trans {third : Session} (h : session.Shows other) (hother : other.Shows third) :
    session.Shows third :=
  ⟨h.graph_eq.trans hother.graph_eq, h.history_eq.trans hother.history_eq,
    h.log_eq.trans hother.log_eq⟩

/-- The request shows another graph and keeps the one shown before. -/
def Request.Changes : Request → Prop
  | .apply _ => True
  | .relayout => True
  | .restore _ => True
  | _ => False

/-- Requests lead from the first session to another one. The sessions in which the changes were made
that are not undone stand in a list, the latest first. Any request may be refused, also to load a
document, and the run goes on with what the refusal leaves; an undo may be asked for while a change
stands. -/
inductive Changed (first : Session) : List Session → Session → Prop
  | refl : Changed first [] first
  | changed {standing : List Session} {session next : Session} (request : Request)
      (h : Changed first standing session) (hchanges : request.Changes)
      (hcall : session.call request = (next, .ok ())) : Changed first (session :: standing) next
  | refused {standing : List Session} {session next : Session} (request : Request)
      {error : SessionError} (h : Changed first standing session)
      (hcall : session.call request = (next, .error error)) : Changed first standing next
  | undone {before : Session} {standing : List Session} {session : Session}
      (h : Changed first (before :: standing) session) :
      Changed first standing (session.perform .undo)

/-! ## One change -/

/-- What an undo shows depends on the history and the log alone. -/
theorem Shows.undo (h : session.Shows other) (hundo : other.undo = (next, .ok ())) :
    ∃ earlier, session.undo = (earlier, .ok ()) ∧ earlier.Shows next := by
  unfold Session.undo at hundo ⊢
  rw [h.history_eq, h.log_eq]
  split at hundo
  · cases hundo
  · cases hundo
    exact ⟨_, rfl, ⟨rfl, rfl, rfl⟩⟩

/-- A change that is granted puts the graph in front of the history, with the length of the log. -/
theorem undo_of_call {request : Request} (hchanges : request.Changes)
    (hcall : session.call request = (next, .ok ())) :
    ∃ earlier, next.undo = (earlier, .ok ()) ∧ earlier.Shows session := by
  cases request with
  | load v => exact hchanges.elim
  | loadUnder policy v => exact hchanges.elim
  | loadDocument document => exact hchanges.elim
  | undo => exact hchanges.elim
  | apply op =>
      simp only [call, apply] at hcall
      split at hcall
      · cases hcall
      · cases hcall
        exact ⟨_, rfl, ⟨rfl, rfl, List.take_left⟩⟩
  | relayout =>
      simp only [call, relayout] at hcall
      split at hcall
      · cases hcall
      · cases hcall
        exact ⟨_, rfl, ⟨rfl, rfl, List.take_length⟩⟩
  | restore bytes =>
      simp only [call, restore] at hcall
      split at hcall
      · cases hcall
      · cases hcall
        exact ⟨_, undo_replaceGraph session _, .refl session⟩

/-! ## Runs -/

/-- Undoing leads back through the sessions of a list, and then to the first one. -/
inductive Unwinds (first : Session) : List Session → Session → Prop
  | nil {session : Session} (h : session.Shows first) : Unwinds first [] session
  | cons {before : Session} {standing : List Session} {session earlier : Session}
      (hundo : session.undo = (earlier, .ok ())) (hshows : earlier.Shows before)
      (h : Unwinds first standing before) : Unwinds first (before :: standing) session

theorem Unwinds.of_shows (hshows : session.Shows other) (h : Unwinds first standing other) :
    Unwinds first standing session := by
  cases h with
  | nil hfirst => exact .nil (hshows.trans hfirst)
  | cons hundo hbefore hrest =>
      obtain ⟨earlier, hearlier, hsame⟩ := hshows.undo hundo
      exact .cons hearlier (hsame.trans hbefore) hrest

theorem Changed.unwinds (h : Changed first standing session) : Unwinds first standing session := by
  induction h with
  | refl => exact .nil (.refl first)
  | changed request _ hchanges hcall ih =>
      obtain ⟨earlier, hundo, hshows⟩ := undo_of_call hchanges hcall
      exact .cons hundo hshows ih
  | refused request _ hcall ih =>
      rw [eq_of_call_eq_error hcall]
      exact ih
  | undone _ ih =>
      cases ih with
      | cons hundo hshows hrest =>
          rw [perform_of_ok .undo hundo]
          exact hrest.of_shows hshows

/-- So many undos; none is asked for after a refused one. -/
def undoTimes : Nat → Session → Answer
  | 0, session => (session, .ok ())
  | n + 1, session =>
    match session.undo with
    | (earlier, .error e) => (earlier, .error e)
    | (earlier, .ok ()) => undoTimes n earlier

theorem undoTimes_succ {n : Nat} {earlier : Session} (h : session.undo = (earlier, .ok ())) :
    undoTimes (n + 1) session = undoTimes n earlier := by
  rw [undoTimes, h]

theorem Unwinds.undoTimes_succ (h : Unwinds first standing session) {n : Nat} {before : Session}
    (hbefore : standing[n]? = some before) :
    ∃ earlier, undoTimes (n + 1) session = (earlier, .ok ()) ∧ earlier.Shows before := by
  induction n generalizing standing session with
  | zero =>
      cases h with
      | nil => cases hbefore
      | cons hundo hshows _ =>
          cases hbefore
          exact ⟨_, Session.undoTimes_succ hundo, hshows⟩
  | succ n ih =>
      cases h with
      | nil => cases hbefore
      | cons hundo hshows hrest =>
          rw [Session.undoTimes_succ hundo]
          exact ih (hrest.of_shows hshows) hbefore

theorem Unwinds.undoTimes_length (h : Unwinds first standing session) :
    ∃ last, undoTimes standing.length session = (last, .ok ()) ∧ last.Shows first := by
  induction standing generalizing session with
  | nil =>
      cases h with
      | nil hfirst => exact ⟨session, rfl, hfirst⟩
  | cons before standing ih =>
      cases h with
      | cons hundo hshows hrest =>
          rw [List.length_cons, Session.undoTimes_succ hundo]
          exact ih (hrest.of_shows hshows)

/-- A refused request leaves the session as it was. As many undos are granted as changes stand: each
shows the graph, the history and the log of the session in which the change was made that it takes
back, and the last one those of the first session. -/
theorem Changed.goes_back (h : Changed first standing session) :
    (∀ request next error, session.call request = (next, .error error) → next = session) ∧
    (∀ (n : Nat) (before : Session), standing[n]? = some before →
      ∃ earlier, undoTimes (n + 1) session = (earlier, .ok ()) ∧ earlier.Shows before) ∧
    ∃ last, undoTimes standing.length session = (last, .ok ()) ∧ last.Shows first := by
  refine ⟨?_, ?_, h.unwinds.undoTimes_length⟩
  · intro request next error hcall
    exact eq_of_call_eq_error hcall
  · intro n before hbefore
    exact h.unwinds.undoTimes_succ hbefore

def noteAdded : Request :=
  .apply (.addConstantNode (.text "note") ⟨0.0, 0.0⟩ (some "note"))

def annotated : Session :=
  (start numberedSupply ⟨Registry.standard, LayoutConfig.standard⟩).perform noteAdded

/-- The session laid out again; then a snapshot without bytes was refused, and the empty graph that
another one holds was shown and taken back. -/
def restored : Session :=
  (((annotated.perform .relayout).perform (.restore [])).perform (.restore [0, 0, 0])).perform .undo

/-- Two changes stand: the edit and the relayout. -/
theorem changed_restored :
    Changed (start numberedSupply ⟨Registry.standard, LayoutConfig.standard⟩)
      [annotated, start numberedSupply ⟨Registry.standard, LayoutConfig.standard⟩] restored := by
  have hadded := Changed.changed noteAdded
    (Changed.refl : Changed (start numberedSupply ⟨Registry.standard, LayoutConfig.standard⟩) [] _)
    trivial rfl
  have hrelaid := hadded.changed .relayout trivial rfl
  have hrefused := hrelaid.refused (.restore []) rfl
  exact (hrefused.changed (.restore [0, 0, 0]) trivial rfl).undone

/-- Two undos lead back to the empty document. -/
theorem restored_goes_back :
    let first := start numberedSupply ⟨Registry.standard, LayoutConfig.standard⟩
    Changed first [annotated, first] restored ∧
      (restored.graph.nodes.map Node.id, restored.log.length, restored.history.length) =
        (["root", "note"], 1, 2) ∧
      (∃ earlier, undoTimes 1 restored = (earlier, .ok ()) ∧ earlier.Shows annotated) ∧
      ∃ last, undoTimes 2 restored = (last, .ok ()) ∧ last.Shows first := by
  obtain ⟨_, hbefore, hfirst⟩ := changed_restored.goes_back
  exact ⟨changed_restored, rfl, hbefore 0 annotated rfl, hfirst⟩

end Session

end RuleGraph
