import Mathlib
import StyleIndex.Proofs.ImportGraph.Update
import StyleIndex.Watcher

set_option autoImplicit false

/-! # A watcher loses no change

The steps of a watcher come in any order: changes are accepted, the timer expires, its token is
handled, the watcher is paused and resumed. What can be seen of this from outside is the *history*
of a run (`PendingChanges.history`): the changes it accepts, the batches it delivers, and when it is
paused.

`PendingChanges.Sound` ties the state of a watcher to its history. Pending are the changes accepted
since the last delivery. If there are any and the watcher is not paused, then the timer is running
or its token waits to be handled: a token that a paused watcher throws away is made up for by
resuming, which delivers at once. Every step keeps this (`Sound.step`), and so does every run
(`Sound.run`); `run_delivers` reads off what it says about the delivered batches.
-/

namespace StyleIndex

/-! ## Histories -/

/-- What can be seen of a watcher from outside. -/
inductive WatchEvent where
  | accepted (path : Text)
  | delivered (batch : List Text)
  | paused
  | resumed
  deriving DecidableEq

namespace WatchEvent

/-- The batch that is delivered. -/
def batch? : WatchEvent → Option (List Text)
  | .delivered batch => some batch
  | _ => none

/-- What has happened since the last delivery. -/
def sinceDelivery (history : List WatchEvent) : List WatchEvent :=
  history.rtakeWhile fun e => e.batch?.isNone

/-- Whether the watcher is paused at the end of a history: it was paused and not resumed since. -/
def endsPaused (history : List WatchEvent) : Bool :=
  history.foldl (fun paused e =>
    match e with
    | .paused => true
    | .resumed => false
    | _ => paused) false

end WatchEvent

/-- What can be seen of a step itself. The timer and its token are hidden. -/
def WatchStep.event? : WatchStep → Option WatchEvent
  | .accept path => some (.accepted path)
  | .pause => some .paused
  | .resume => some .resumed
  | .expire => none
  | .handleToken => none

namespace PendingChanges

/-- What can be seen of a step: the step itself, and then the batch that it delivers. -/
def eventsOf (c : PendingChanges) (s : WatchStep) : List WatchEvent :=
  s.event?.toList ++ ((c.step s).2.map WatchEvent.delivered).toList

/-- The history of a run. -/
def history (c : PendingChanges) : List WatchStep → List WatchEvent
  | [] => []
  | s :: rest => c.eventsOf s ++ history (c.step s).1 rest

end PendingChanges

namespace WatchEvent

variable {h : List WatchEvent} {e : WatchEvent}

theorem sinceDelivery_append_of_none (he : e.batch? = none) :
    sinceDelivery (h ++ [e]) = sinceDelivery h ++ [e] := by
  rw [sinceDelivery, List.rtakeWhile_concat_pos _ _ _ (by rw [he]; rfl)]
  rfl

/-- A delivery leaves nothing behind. -/
theorem sinceDelivery_append_delivered (h : List WatchEvent) (batch : List Text) :
    sinceDelivery (h ++ [.delivered batch]) = [] :=
  List.rtakeWhile_concat_neg _ _ _ (by simp [batch?])

/-- What is followed by no delivery has happened since the last one. -/
theorem mem_sinceDelivery (he : e.batch? = none) {rest : List WatchEvent}
    (hrest : ∀ x ∈ rest, x.batch? = none) : e ∈ sinceDelivery (h ++ e :: rest) := by
  induction rest using List.reverseRecOn with
  | nil =>
      rw [sinceDelivery_append_of_none he]
      simp
  | append_singleton rest x ih =>
      have hx : x.batch? = none := hrest x (by simp)
      have hassoc : h ++ e :: (rest ++ [x]) = (h ++ e :: rest) ++ [x] := by simp
      rw [hassoc, sinceDelivery_append_of_none hx]
      exact List.mem_append_left _ (ih fun y hy => hrest y (List.mem_append_left _ hy))

theorem endsPaused_append (h : List WatchEvent) (e : WatchEvent) :
    endsPaused (h ++ [e])
      = match e with
        | .paused => true
        | .resumed => false
        | _ => endsPaused h := by
  rw [endsPaused, List.foldl_append]
  rfl

/-- A batch that is right to deliver after a history: the changes that were accepted since the last
delivery, in increasing order, when there are any and the watcher is not paused. -/
structure Due (h : List WatchEvent) (batch : List Text) : Prop where
  ne_nil : batch ≠ []
  increasing : batch.Pairwise (· < ·)
  mem_iff : ∀ p, p ∈ batch ↔ .accepted p ∈ sinceDelivery h
  notPaused : endsPaused h = false

end WatchEvent

/-! ## The state and the history -/

namespace PendingChanges

open WatchEvent

variable {h : List WatchEvent} {c : PendingChanges}

/-- The state of a watcher shows its history: what has been accepted since the last delivery, and
whether it is paused. -/
structure Tracks (h : List WatchEvent) (c : PendingChanges) : Prop where
  pending : ∀ p, p ∈ c.pending ↔ .accepted p ∈ sinceDelivery h
  paused : c.paused = endsPaused h

/-- Moreover, what is pending is on its way, unless the watcher is paused. -/
structure Sound (h : List WatchEvent) (c : PendingChanges) : Prop extends Tracks h c where
  armed : c.paused = false → c.pending.isEmpty = false → c.timerArmed = true ∨ c.token = true

theorem sound_start : Sound [] start where
  pending := by
    intro p
    simp [start, sinceDelivery]
  paused := rfl
  armed := by
    intro _ hpending
    simp [start] at hpending

/-- The timer and its token do not show in the history. -/
theorem Tracks.setTimer (ht : Tracks h c) (timerArmed token : Bool) :
    Tracks h { c with timerArmed := timerArmed, token := token } :=
  ⟨ht.pending, ht.paused⟩

theorem Tracks.accept (ht : Tracks h c) (path : Text) (timerArmed : Bool) :
    Tracks (h ++ [.accepted path])
      { c with pending := c.pending.insert path, timerArmed := timerArmed } where
  pending := by
    intro p
    rw [sinceDelivery_append_of_none rfl, List.mem_append, ← ht.pending,
      Std.ExtTreeSet.mem_insert, Std.LawfulEqCmp.compare_eq_iff_eq, List.mem_singleton,
      WatchEvent.accepted.injEq]
    tauto
  paused := by
    rw [endsPaused_append]
    exact ht.paused

theorem Tracks.setPaused (ht : Tracks h c) (paused : Bool) :
    Tracks (h ++ [if paused then .paused else .resumed]) { c with paused := paused } where
  pending := by
    intro p
    have hnone : (if paused then WatchEvent.paused else .resumed).batch? = none := by
      cases paused <;> rfl
    have hne : WatchEvent.accepted p ≠ if paused then .paused else .resumed := by
      cases paused <;> simp
    rw [sinceDelivery_append_of_none hnone, List.mem_append, ← ht.pending]
    simp [hne]
  paused := by
    rw [endsPaused_append]
    cases paused <;> rfl

/-- **Delivering what is pending.** Nothing is pending afterwards, and the batch, if there is one,
is due. -/
theorem Tracks.flush (ht : Tracks h c) (hpaused : c.paused = false) :
    Sound (h ++ (c.flush.2.map WatchEvent.delivered).toList) c.flush.1 ∧
      ∀ batch, c.flush.2 = some batch → Due h batch := by
  rw [PendingChanges.flush]
  split_ifs with hempty
  · refine ⟨⟨by simpa using ht, ?_⟩, by simp⟩
    intro _ hpending
    rw [hempty] at hpending
    cases hpending
  · refine ⟨⟨⟨?_, ?_⟩, by simp⟩, ?_⟩
    · intro p
      simp [sinceDelivery_append_delivered]
    · simp only [Option.map_some, Option.toList_some]
      rw [endsPaused_append]
      exact ht.paused
    · intro batch hbatch
      obtain rfl := Option.some.inj hbatch
      refine ⟨?_, PathSet.pairwise_toList c.pending, ?_, ht.paused.symm.trans hpaused⟩
      · intro hnil
        exact hempty (by rw [← Std.ExtTreeSet.isEmpty_toList, hnil]; rfl)
      · intro p
        rw [Std.ExtTreeSet.mem_toList, ht.pending]

/-! ## One step -/

/-- **A step keeps what is pending on its way**, and what it delivers is due. -/
theorem Sound.step (hs : Sound h c) (s : WatchStep) :
    Sound (h ++ c.eventsOf s) (c.step s).1 ∧
      ∀ batch, (c.step s).2 = some batch → Due (h ++ s.event?.toList) batch := by
  rw [eventsOf, ← List.append_assoc]
  cases s with
  | accept path =>
      refine ⟨⟨?_, fun _ _ => Or.inl rfl⟩, by simp [PendingChanges.step]⟩
      simpa [WatchStep.event?, PendingChanges.step] using hs.toTracks.accept path true
  | expire =>
      refine ⟨?_, by simp [PendingChanges.step]⟩
      simp only [WatchStep.event?, PendingChanges.step, Option.toList_none, Option.map_none,
        List.append_nil]
      split_ifs
      · exact ⟨hs.toTracks.setTimer false true, fun _ _ => Or.inr rfl⟩
      · exact hs
  | handleToken =>
      simp only [WatchStep.event?, PendingChanges.step, Option.toList_none, List.append_nil]
      split_ifs with htoken hpaused
      · -- the token of a paused watcher is lost, and resuming makes up for it
        refine ⟨⟨by simpa using hs.toTracks.setTimer c.timerArmed false, ?_⟩, by simp⟩
        intro hrunning
        simp only [hpaused] at hrunning
        cases hrunning
      · exact (hs.toTracks.setTimer c.timerArmed false).flush (by simpa using hpaused)
      · exact ⟨by simpa using hs, by simp⟩
  | pause =>
      refine ⟨⟨?_, by simp [PendingChanges.step]⟩, by simp [PendingChanges.step]⟩
      simpa [WatchStep.event?, PendingChanges.step] using hs.toTracks.setPaused true
  | resume =>
      simp only [WatchStep.event?, PendingChanges.step, Option.toList_some]
      have hresumed := hs.toTracks.setPaused false
      split_ifs with hpaused
      · exact hresumed.flush rfl
      · -- a watcher that is not paused stays as it is
        have hsame : { c with paused := false } = c := by
          obtain ⟨_, _, _, paused⟩ := c
          simp at hpaused
          rw [hpaused]
        rw [hsame] at hresumed
        exact ⟨⟨by simpa using hresumed, hs.armed⟩, by simp⟩

/-! ## All steps -/

/-- **A run keeps what is pending on its way.** -/
theorem Sound.run (hs : Sound h c) (steps : List WatchStep) :
    Sound (h ++ c.history steps) (c.run steps).1 := by
  induction steps generalizing h c with
  | nil => simpa [history, PendingChanges.run] using hs
  | cons s rest ih =>
      have hrest := ih (hs.step s).1
      rwa [List.append_assoc] at hrest

/-- The batches that a run delivers are those of its history. -/
theorem batches_run (c : PendingChanges) (steps : List WatchStep) :
    (c.run steps).2 = (c.history steps).filterMap WatchEvent.batch? := by
  induction steps generalizing c with
  | nil => rfl
  | cons s rest ih =>
      have hstep : (c.eventsOf s).filterMap WatchEvent.batch? = (c.step s).2.toList := by
        rw [eventsOf, List.filterMap_append]
        cases s <;> cases (c.step _).2 <;> rfl
      show (c.step s).2.toList ++ ((c.step s).1.run rest).2 = _
      rw [history, List.filterMap_append, hstep, ih]

/-- Only a batch that a step delivers shows as delivered, and it is the last that is seen of the
step. -/
theorem of_eventsOf_eq {s : WatchStep} {front back : List WatchEvent} {batch : List Text}
    (hsplit : c.eventsOf s = front ++ .delivered batch :: back) :
    front = s.event?.toList ∧ (c.step s).2 = some batch := by
  have hstep : .delivered batch ∉ s.event?.toList := by
    cases s <;> simp [WatchStep.event?]
  rw [eventsOf] at hsplit
  cases hdelivered : (c.step s).2 with
  | none =>
      rw [hdelivered, Option.map_none, Option.toList_none, List.append_nil] at hsplit
      rw [hsplit] at hstep
      simp at hstep
  | some delivered =>
      rw [hdelivered] at hsplit
      rcases List.eq_nil_or_concat' back with rfl | ⟨back, e, rfl⟩
      · obtain ⟨hfront, hbatch⟩ := List.append_inj' hsplit rfl
        obtain rfl : delivered = batch := by simpa using hbatch
        exact ⟨hfront.symm, rfl⟩
      · -- the batch would stand in front of what is seen last
        have hassoc : front ++ WatchEvent.delivered batch :: (back ++ [e])
            = (front ++ WatchEvent.delivered batch :: back) ++ [e] := by simp
        rw [hassoc] at hsplit
        obtain ⟨hfront, -⟩ := List.append_inj' hsplit rfl
        rw [hfront] at hstep
        simp at hstep

/-- **Every batch of a run is due when it is delivered.** -/
theorem Sound.due (hs : Sound h c) {steps : List WatchStep} {front back : List WatchEvent}
    {batch : List Text} (hsplit : c.history steps = front ++ .delivered batch :: back) :
    Due (h ++ front) batch := by
  induction steps generalizing h c front with
  | nil => simp [history] at hsplit
  | cons s rest ih =>
      obtain ⟨hnext, hdue⟩ := hs.step s
      rw [history] at hsplit
      -- the batch is delivered by this step or by a later one
      rcases List.append_eq_append_iff.mp hsplit with ⟨later, rfl, hlater⟩ | ⟨now, hnow, hlater⟩
      · have hbatch := ih hnext hlater
        rwa [List.append_assoc] at hbatch
      · cases now with
        | nil =>
            rw [List.append_nil] at hnow
            have hlater : history (c.step s).1 rest = [] ++ .delivered batch :: back := hlater.symm
            have hbatch := ih hnext hlater
            rwa [List.append_nil, hnow] at hbatch
        | cons e now =>
            obtain ⟨rfl, -⟩ := List.cons.inj hlater
            obtain ⟨rfl, hstep⟩ := of_eventsOf_eq hnow
            exact hdue batch hstep

end PendingChanges

/-- **A watcher loses no change.** Take the steps of a watcher in any order, from its start. Every
batch it delivers holds exactly the changes that were accepted since the batch before, at least
one, each once and in increasing order, and the watcher is not paused then. So the first batch after
an accepted change holds it. At the end, pending is what was accepted since the last batch; if that
is anything and the watcher is not paused, then the timer is running or has left its token. -/
theorem run_delivers (steps : List WatchStep) :
    let history := PendingChanges.start.history steps
    let c := (PendingChanges.start.run steps).1
    (PendingChanges.start.run steps).2 = history.filterMap WatchEvent.batch? ∧
      (∀ front batch back, history = front ++ .delivered batch :: back →
        batch ≠ [] ∧ batch.Pairwise (· < ·) ∧
          (∀ p, p ∈ batch ↔ .accepted p ∈ WatchEvent.sinceDelivery front) ∧
          WatchEvent.endsPaused front = false) ∧
      (∀ front p middle batch back,
        history = front ++ .accepted p :: middle ++ .delivered batch :: back →
        (∀ e ∈ middle, e.batch? = none) → p ∈ batch) ∧
      (∀ p, p ∈ c.pending ↔ .accepted p ∈ WatchEvent.sinceDelivery history) ∧
      c.paused = WatchEvent.endsPaused history ∧
      (c.paused = false → c.pending ≠ ∅ → c.timerArmed = true ∨ c.token = true) := by
  intro history c
  have hdue : ∀ {front batch back}, history = front ++ .delivered batch :: back →
      WatchEvent.Due front batch := PendingChanges.sound_start.due
  have hsound : PendingChanges.Sound history c := PendingChanges.sound_start.run steps
  refine ⟨PendingChanges.batches_run _ steps, ?_, ?_, hsound.pending, hsound.paused, ?_⟩
  · intro front batch back hsplit
    obtain ⟨hne, hincreasing, hmem, hpaused⟩ := hdue hsplit
    exact ⟨hne, hincreasing, hmem, hpaused⟩
  · intro front p middle batch back hsplit hmiddle
    exact ((hdue hsplit).mem_iff p).mpr (WatchEvent.mem_sinceDelivery rfl hmiddle)
  · intro hpaused hpending
    refine hsound.armed hpaused ?_
    rw [Bool.eq_false_iff]
    exact fun h => hpending (Std.ExtTreeSet.isEmpty_iff.mp h)

/-- A token is lost while the watcher is paused, and a change comes after the batch. -/
def pausedSteps : List WatchStep :=
  [.pause, .accept (text "/b.scss"), .expire, .handleToken, .accept (text "/a.scss"), .resume,
    .accept (text "/c.scss")]

theorem history_pausedSteps :
    PendingChanges.start.history pausedSteps
      = [.paused, .accepted (text "/b.scss"), .accepted (text "/a.scss"), .resumed,
          .delivered [text "/a.scss", text "/b.scss"], .accepted (text "/c.scss")] := by
  cbv

theorem run_delivers_pausedSteps :
    (PendingChanges.start.run pausedSteps).2 = [[text "/a.scss", text "/b.scss"]] ∧
      text "/b.scss" ∈ [text "/a.scss", text "/b.scss"] ∧
      text "/c.scss" ∈ (PendingChanges.start.run pausedSteps).1.pending ∧
      ((PendingChanges.start.run pausedSteps).1.timerArmed = true ∨
        (PendingChanges.start.run pausedSteps).1.token = true) := by
  obtain ⟨hbatches, -, hfirst, hpending, hpaused, harmed⟩ := run_delivers pausedSteps
  rw [history_pausedSteps] at hbatches hfirst hpending hpaused
  have hc : text "/c.scss" ∈ (PendingChanges.start.run pausedSteps).1.pending :=
    (hpending _).mpr (by decide)
  refine ⟨hbatches, ?_, hc, harmed hpaused ?_⟩
  · exact hfirst [.paused] _ [.accepted (text "/a.scss"), .resumed] _
      [.accepted (text "/c.scss")] rfl (by decide)
  · rintro hempty
    rw [hempty] at hc
    exact Std.ExtTreeSet.not_mem_empty hc

end StyleIndex
