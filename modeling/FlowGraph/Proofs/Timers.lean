import FlowGraph.Proofs.Sums
import FlowGraph.Scheduler
import Mathlib.Data.List.Nodup

/-!
A clock that is moved by hand fires each timer once, in the order of the due times, at its time. What happens to timers is
written down beside the calls that make it happen; a course is a history of such calls from a clock without timers.
-/
namespace FlowGraph.Scheduler

/-! ## Clocks -/

/-- The values that a clock shows are in order, and it never goes back by waiting. -/
structure Clock (times delays spans : Value → Prop) : Prop where
  compares {a b : Value} : times a → times b → Value.order .le a b = .ok !earlier b a
  asymmetric {a b : Value} : times a → times b → earlier a b = true → earlier b a = false
  transitive {a b c : Value} : times a → times b → times c → earlier b a = false → earlier c b = false → earlier c a = false
  waits {t d : Value} : times t → delays d →
    ∃ wait due, atLeastZero d = .ok wait ∧ t.add wait = .ok due ∧ times due ∧ earlier due t = false
  passes {t s : Value} : times t → spans s → ∃ target, t.add s = .ok target ∧ times target ∧ earlier target t = false

mutual
/-- The act sets and cancels timers, and so does whatever it sets. -/
def Act.Calls (delays : Value → Prop) : Act → Prop
  | .callLater _ delay acts => delays delay ∧ AllCall delays acts
  | .cancel _ | .cancelled _ => True
  | .advance _ | .raise _ => False
def AllCall (delays : Value → Prop) : List Act → Prop
  | [] => True
  | a :: rest => a.Calls delays ∧ AllCall delays rest
end

/-- A timer whose callback is a script, which has a label. -/
abbrev Alarm := Timer (String × List Act)

/-- The first fires before the second: it is due earlier, or at the same time and was set before it. -/
def Before (t u : Alarm) : Prop := earlier t.due u.due = true ∨ earlier u.due t.due = false ∧ t.handle < u.handle

/-! ## What happens to timers -/

inductive Incident where
  | set (t : Alarm)
  | cancelled (handle : Nat)
  | fired (t : Alarm)

def Incident.set? : Incident → Option Alarm
  | .set t => some t
  | _ => none

def Incident.cancelled? : Incident → Option Nat
  | .cancelled h => some h
  | _ => none

def Incident.fired? : Incident → Option Alarm
  | .fired t => some t
  | _ => none

def alarmsSet (es : List Incident) : List Alarm := es.filterMap Incident.set?
def handlesCancelled (es : List Incident) : List Nat := es.filterMap Incident.cancelled?
def alarmsFired (es : List Incident) : List Alarm := es.filterMap Incident.fired?

def Stage.setting (st : Stage) (t : Alarm) : Stage :=
  { st with
    scheduler := { st.scheduler with timers := insert t st.scheduler.timers, issued := st.scheduler.issued + 1 }
    handles := st.handles.set t.callback.1 t.handle }

/-- What one call does. Only a timer that has neither fired nor been cancelled can be cancelled. -/
inductive Does : Act → Stage → List Incident → Stage → Prop where
  | callLater {label : String} {delay wait due : Value} {acts : List Act} {st : Stage}
      (hwait : atLeastZero delay = .ok wait) (hdue : st.scheduler.now.add wait = .ok due) :
      Does (.callLater label delay acts) st [.set ⟨due, st.scheduler.issued, (label, acts)⟩]
        (st.setting ⟨due, st.scheduler.issued, (label, acts)⟩)
  | cancel {label : String} {h : Nat} {st : Stage} (hlabel : st.handles.get? label = some h) (hopen : h ∉ st.scheduler.spent) :
      Does (.cancel label) st [.cancelled h] { st with scheduler := st.scheduler.cancel h }
  | cancelSpent {label : String} {h : Nat} {st : Stage} (hlabel : st.handles.get? label = some h)
      (hspent : h ∈ st.scheduler.spent) : Does (.cancel label) st [] st
  | cancelled {label : String} {h : Nat} {st : Stage} (hlabel : st.handles.get? label = some h) :
      Does (.cancelled label) st [] st

/-- What one call after the other does. -/
inductive DoesAll : List Act → Stage → List Incident → Stage → Prop where
  | nil {st : Stage} : DoesAll [] st [] st
  | cons {a : Act} {rest : List Act} {st mid st' : Stage} {es fs : List Incident}
      (ha : Does a st es mid) (hrest : DoesAll rest mid fs st') : DoesAll (a :: rest) st (es ++ fs) st'

/-- The stage as the callback of a timer finds it: the timer is spent, and the clock shows when it was due. -/
def Stage.firing (st : Stage) (s : Scheduler (String × List Act)) (t : Alarm) : Stage :=
  { st with scheduler := s.cancel t.handle, fired := st.fired ++ [(t.callback.1, s.now)] }

/-- What firing the timers due up to `target` does. -/
inductive Fires (target : Value) : Stage → List Incident → Stage → Prop where
  | done {st : Stage} (hnone : st.scheduler.next? target = .ok none) : Fires target st [] st
  | skip {st st' : Stage} {t : Alarm} {s : Scheduler (String × List Act)} {es : List Incident}
      (hnext : st.scheduler.next? target = .ok (some (t, s))) (hspent : t.handle ∈ s.spent)
      (hrest : Fires target { st with scheduler := s } es st') : Fires target st es st'
  | fire {st mid st' : Stage} {t : Alarm} {s : Scheduler (String × List Act)} {es fs : List Incident}
      (hnext : st.scheduler.next? target = .ok (some (t, s))) (hopen : t.handle ∉ s.spent)
      (hacts : DoesAll t.callback.2 (st.firing s t) es mid) (hrest : Fires target mid fs st') :
      Fires target st (.fired t :: es ++ fs) st'

def Stage.showing (st : Stage) (now : Value) : Stage := { st with scheduler := { st.scheduler with now := now } }

abbrev Performance.runOn {α : Type} (x : Performance α) (st : Stage) : Except Fault α × Stage := x.run.run st

/-- A history of calls on a clock, all of which return, with what happened to the timers by them. -/
inductive Course (delays spans : Value → Prop) (start : Value) : List Incident → Stage → Prop where
  | begins : Course delays spans start [] { scheduler := { now := start } }
  | calls {es fs : List Incident} {st st' : Stage} {a : Act} {v : Value} (h : Course delays spans start es st)
      (ha : a.Calls delays) (hrun : (perform a).runOn st = (.ok v, st')) (hdoes : Does a st fs st') :
      Course delays spans start (es ++ fs) st'
  | advances {es fs : List Incident} {st st' : Stage} {seconds target v : Value} (h : Course delays spans start es st)
      (hspan : spans seconds) (hrun : (perform (.advance seconds)).runOn st = (.ok v, st'.showing target))
      (htarget : st.scheduler.now.add seconds = .ok target) (hfires : Fires target st fs st') :
      Course delays spans start (es ++ fs) (st'.showing target)

/-! ## Lists of incidents -/

@[simp] theorem alarmsSet_nil : alarmsSet [] = [] := rfl
@[simp] theorem alarmsFired_nil : alarmsFired [] = [] := rfl
@[simp] theorem handlesCancelled_nil : handlesCancelled [] = [] := rfl
@[simp] theorem alarmsSet_append (es fs : List Incident) : alarmsSet (es ++ fs) = alarmsSet es ++ alarmsSet fs :=
  List.filterMap_append
@[simp] theorem alarmsFired_append (es fs : List Incident) : alarmsFired (es ++ fs) = alarmsFired es ++ alarmsFired fs :=
  List.filterMap_append
@[simp] theorem handlesCancelled_append (es fs : List Incident) :
    handlesCancelled (es ++ fs) = handlesCancelled es ++ handlesCancelled fs := List.filterMap_append
@[simp] theorem alarmsSet_set (t : Alarm) (es : List Incident) : alarmsSet (.set t :: es) = t :: alarmsSet es := rfl
@[simp] theorem alarmsSet_cancelled (h : Nat) (es : List Incident) : alarmsSet (.cancelled h :: es) = alarmsSet es := rfl
@[simp] theorem alarmsSet_fired (t : Alarm) (es : List Incident) : alarmsSet (.fired t :: es) = alarmsSet es := rfl
@[simp] theorem alarmsFired_set (t : Alarm) (es : List Incident) : alarmsFired (.set t :: es) = alarmsFired es := rfl
@[simp] theorem alarmsFired_cancelled (h : Nat) (es : List Incident) : alarmsFired (.cancelled h :: es) = alarmsFired es := rfl
@[simp] theorem alarmsFired_fired (t : Alarm) (es : List Incident) : alarmsFired (.fired t :: es) = t :: alarmsFired es := rfl
@[simp] theorem handlesCancelled_set (t : Alarm) (es : List Incident) :
    handlesCancelled (.set t :: es) = handlesCancelled es := rfl
@[simp] theorem handlesCancelled_cancelled (h : Nat) (es : List Incident) :
    handlesCancelled (.cancelled h :: es) = h :: handlesCancelled es := rfl
@[simp] theorem handlesCancelled_fired (t : Alarm) (es : List Incident) :
    handlesCancelled (.fired t :: es) = handlesCancelled es := rfl

/-- What calls do fires no timer. -/
theorem Does.alarmsFired {a : Act} {st st' : Stage} {es : List Incident} (h : Does a st es st') : alarmsFired es = [] := by
  cases h <;> rfl

theorem DoesAll.alarmsFired {acts : List Act} {st st' : Stage} {es : List Incident} (h : DoesAll acts st es st') :
    Scheduler.alarmsFired es = [] := by
  induction h with
  | nil => rfl
  | cons ha _ ih => simp [ha.alarmsFired, ih]

/-! ## The timers in order -/

theorem mem_insert {t u : Alarm} {ts : List Alarm} : u ∈ insert t ts ↔ u = t ∨ u ∈ ts := by
  induction ts with
  | nil => simp [insert]
  | cons v rest ih =>
    unfold insert
    split
    · simp
    · simp [ih, or_left_comm]

/-- The timers are due in the order in which they stand, none before the clock, and call nothing but timers. -/
structure Lined (times delays : Value → Prop) (s : Scheduler (String × List Act)) : Prop where
  now : times s.now
  sorted : s.timers.Pairwise Before
  issued : ∀ t ∈ s.timers, t.handle < s.issued
  times : ∀ t ∈ s.timers, times t.due
  ahead : ∀ t ∈ s.timers, earlier t.due s.now = false
  calls : ∀ t ∈ s.timers, AllCall delays t.callback.2

section

variable {times delays spans : Value → Prop} (clock : Clock times delays spans)
include clock

/-- Of three alarms the first comes before the last. -/
theorem Clock.before_trans {t u v : Alarm} (ht : times t.due) (hu : times u.due) (hv : times v.due) (htu : Before t u)
    (huv : Before u v) : Before t v := by
  have hnot {a b : Alarm} (ha : times a.due) (hb : times b.due) (hab : Before a b) : earlier b.due a.due = false :=
    hab.elim (clock.asymmetric ha hb) And.left
  by_cases h : earlier t.due v.due = true
  · exact .inl h
  · rw [Bool.not_eq_true] at h
    -- All three are due at the same time.
    have hvt := clock.transitive ht hu hv (hnot ht hu htu) (hnot hu hv huv)
    have hut : earlier t.due u.due = false := clock.transitive hu hv ht (hnot hu hv huv) h
    have hvu : earlier u.due v.due = false := clock.transitive hv ht hu h (hnot ht hu htu)
    refine .inr ⟨hvt, ?_⟩
    rcases htu with htu | htu
    · rw [hut] at htu
      cases htu
    · rcases huv with huv | huv
      · rw [hvu] at huv
        cases huv
      · exact Nat.lt_trans htu.2 huv.2

/-- An alarm that is set last comes behind all that are due no later. -/
theorem Clock.sorted_insert {t : Alarm} {ts : List Alarm} (ht : times t.due) (hts : ∀ u ∈ ts, times u.due)
    (hhandle : ∀ u ∈ ts, u.handle < t.handle) (h : ts.Pairwise Before) : (insert t ts).Pairwise Before := by
  induction ts with
  | nil => simp [insert]
  | cons u rest ih =>
    have hrest := List.pairwise_cons.1 h
    unfold insert
    split
    · rename_i hearly
      refine List.pairwise_cons.2 ⟨fun v hv => ?_, h⟩
      rcases List.mem_cons.1 hv with rfl | hv'
      · exact .inl hearly
      · exact clock.before_trans ht (hts u (by simp)) (hts v hv) (.inl hearly) (hrest.1 v hv')
    · rename_i hlate
      rw [Bool.not_eq_true] at hlate
      refine List.pairwise_cons.2 ⟨fun v hv => ?_, ih (fun v hv => hts v (by simp [hv]))
        (fun v hv => hhandle v (by simp [hv])) hrest.2⟩
      rcases mem_insert.1 hv with rfl | hv
      · exact .inr ⟨hlate, hhandle u (by simp)⟩
      · exact hrest.1 v hv

/-- The first timer is taken exactly if it is not due after the target. -/
theorem Clock.next?_cons {s : Scheduler (String × List Act)} {t : Alarm} {rest : List Alarm} {target : Value}
    (h : Lined times delays s) (htarget : times target) (hs : s.timers = t :: rest) : s.next? target = .ok
      (if earlier target t.due then none else some (t, { s with timers := rest, now := t.due })) := by
  have hcompare := clock.compares (h.times t (by simp [hs])) htarget
  unfold next?
  simp only [hs, hcompare]
  cases earlier target t.due <;> rfl

theorem Clock.eq_of_next? {s s' : Scheduler (String × List Act)} {t : Alarm} {target : Value} (h : Lined times delays s)
    (htarget : times target) (hnext : s.next? target = .ok (some (t, s'))) : earlier target t.due = false ∧
      s.timers = t :: s'.timers ∧ s' = { s with timers := s'.timers, now := t.due } := by
  cases hs : s.timers with
  | nil =>
    rw [next?, hs] at hnext
    cases hnext
  | cons u rest =>
    rw [clock.next?_cons h htarget hs] at hnext
    split at hnext
    · cases hnext
    · cases hnext
      exact ⟨by simp_all, rfl, rfl⟩

/-- Once no timer is taken, all that are left are due after the target. -/
theorem Clock.late_of_next? {s : Scheduler (String × List Act)} {target : Value} (h : Lined times delays s)
    (htarget : times target) (hnext : s.next? target = .ok none) : ∀ t ∈ s.timers, earlier target t.due = true := by
  cases hs : s.timers with
  | nil => simp
  | cons u rest =>
    have hu : earlier target u.due = true := by
      rw [clock.next?_cons h htarget hs] at hnext
      split at hnext
      · assumption
      · cases hnext
    have hsorted := h.sorted
    have htimes := h.times
    rw [hs] at hsorted htimes
    intro t ht
    rcases List.mem_cons.1 ht with rfl | ht'
    · exact hu
    · by_contra hearly
      rw [Bool.not_eq_true] at hearly
      have hut : earlier t.due u.due = false := ((List.pairwise_cons.1 hsorted).1 t ht').elim
        (clock.asymmetric (htimes u (by simp)) (htimes t ht)) And.left
      rw [clock.transitive (htimes u (by simp)) (htimes t ht) htarget hut hearly] at hu
      cases hu

theorem Lined.setting {st : Stage} {t : Alarm} (h : Lined times delays st.scheduler)
    (htimes : times t.due) (hahead : earlier t.due st.scheduler.now = false) (hhandle : t.handle = st.scheduler.issued)
    (hcalls : AllCall delays t.callback.2) : Lined times delays (st.setting t).scheduler where
  now := h.now
  sorted := clock.sorted_insert htimes h.times (fun u hu => hhandle ▸ h.issued u hu) h.sorted
  issued u hu := by
    rcases mem_insert.1 hu with rfl | hu
    · exact hhandle ▸ Nat.lt_succ_self _
    · exact Nat.lt_succ_of_lt (h.issued u hu)
  times u hu := (mem_insert.1 hu).elim (fun e => e ▸ htimes) (h.times u)
  ahead u hu := (mem_insert.1 hu).elim (fun e => e ▸ hahead) (h.ahead u)
  calls u hu := (mem_insert.1 hu).elim (fun e => e ▸ hcalls) (h.calls u)

end

/-! ## Calls -/

theorem cancel_of_not_mem {s : Scheduler (String × List Act)} {h : Nat} (hopen : h ∉ s.spent) :
    s.cancel h = { s with spent := h :: s.spent } := if_neg hopen

/-- Calls leave the clock alone and fire nothing, and the timers they set have new handles. -/
structure Called (st st' : Stage) : Prop where
  now : st'.scheduler.now = st.scheduler.now
  fired : st'.fired = st.fired
  issued : st.scheduler.issued ≤ st'.scheduler.issued
  timers : ∀ t ∈ st'.scheduler.timers, t ∈ st.scheduler.timers ∨ st.scheduler.issued ≤ t.handle

theorem Called.refl (st : Stage) : Called st st := ⟨rfl, rfl, Nat.le_refl _, fun _ => .inl⟩

theorem Called.trans {st mid st' : Stage} (h : Called st mid) (h' : Called mid st') : Called st st' where
  now := h'.now.trans h.now
  fired := h'.fired.trans h.fired
  issued := Nat.le_trans h.issued h'.issued
  timers t ht := (h'.timers t ht).elim (h.timers t) fun hi => .inr (Nat.le_trans h.issued hi)

theorem Does.called {a : Act} {st st' : Stage} {es : List Incident} (h : Does a st es st') : Called st st' := by
  cases h with
  | callLater hwait hdue =>
    refine ⟨rfl, rfl, Nat.le_succ _, fun t ht => ?_⟩
    rcases mem_insert.1 ht with rfl | ht
    · exact .inr (Nat.le_refl _)
    · exact .inl ht
  | cancel hlabel hopen =>
    rw [cancel_of_not_mem hopen]
    exact ⟨rfl, rfl, Nat.le_refl _, fun _ => .inl⟩
  | cancelSpent | cancelled => exact .refl _

theorem DoesAll.called {acts : List Act} {st st' : Stage} {es : List Incident} (h : DoesAll acts st es st') :
    Called st st' := by
  induction h with
  | nil => exact .refl _
  | cons ha _ ih => exact ha.called.trans ih

/-- What a history leaves: which timers are spent, and that all others still wait. -/
structure Recounts (es : List Incident) (st : Stage) : Prop where
  handles : (alarmsSet es).map (·.handle) = List.range st.scheduler.issued
  known : ∀ t ∈ st.scheduler.timers, t ∈ alarmsSet es
  waiting : ∀ t ∈ alarmsSet es, t.handle ∉ st.scheduler.spent → t ∈ st.scheduler.timers
  spent : ∀ h, h ∈ st.scheduler.spent ↔ h ∈ (alarmsFired es).map (·.handle) ∨ h ∈ handlesCancelled es
  fired : ∀ t ∈ alarmsFired es, t ∈ alarmsSet es
  once : ((alarmsFired es).map (·.handle)).Nodup
  apart : ∀ h ∈ handlesCancelled es, h ∉ (alarmsFired es).map (·.handle)

namespace Recounts

variable {es fs : List Incident} {st st' : Stage}

/-- An alarm that is set is told of once. -/
theorem setting (h : Recounts es st) {t : Alarm} (hhandle : t.handle = st.scheduler.issued) :
    Recounts (es ++ [Incident.set t]) (st.setting t) where
  handles := by simp [Stage.setting, h.handles, List.range_succ, hhandle]
  known u hu := by
    rcases mem_insert.1 hu with rfl | hu
    · simp
    · simp [h.known u hu]
  waiting u hu hopen := by
    simp only [alarmsSet_append, alarmsSet_set, alarmsSet_nil, List.mem_append, List.mem_singleton] at hu
    rcases hu with hu | rfl
    · exact mem_insert.2 (.inr (h.waiting u hu hopen))
    · exact mem_insert.2 (.inl rfl)
  spent k := by simpa [Stage.setting] using h.spent k
  fired u hu := by
    simp only [alarmsFired_append, alarmsFired_set, alarmsFired_nil, List.append_nil] at hu
    simp [h.fired u hu]
  once := by simpa using h.once
  apart := by simpa using h.apart

/-- An alarm that is cancelled is told of once. -/
theorem cancelling (h : Recounts es st) {k : Nat} (hopen : k ∉ st.scheduler.spent) :
    Recounts (es ++ [Incident.cancelled k]) { st with scheduler := st.scheduler.cancel k } := by
  rw [cancel_of_not_mem hopen]
  have hnew := mt (h.spent k).2 hopen
  refine ⟨by simpa using h.handles, by simpa using h.known, fun t ht hspent => ?_, fun j => ?_, by simpa using h.fired,
    by simpa using h.once, fun j hj => ?_⟩
  · exact h.waiting t (by simpa using ht) fun hin => hspent (List.mem_cons_of_mem _ hin)
  · simp only [List.mem_cons, h.spent j, alarmsFired_append, alarmsFired_cancelled, alarmsFired_nil, List.append_nil,
      handlesCancelled_append, handlesCancelled_cancelled, handlesCancelled_nil, List.mem_append, List.not_mem_nil, or_false]
    tauto
  · simp only [handlesCancelled_append, handlesCancelled_cancelled, handlesCancelled_nil, List.mem_append,
      List.mem_singleton] at hj
    simp only [alarmsFired_append, alarmsFired_cancelled, alarmsFired_nil, List.append_nil]
    rcases hj with hj | rfl
    · exact h.apart j hj
    · exact fun hfired => hnew (.inl hfired)

theorem does {a : Act} (h : Recounts es st) (hdoes : Does a st fs st') : Recounts (es ++ fs) st' := by
  cases hdoes with
  | callLater hwait hdue => exact h.setting rfl
  | cancel hlabel hopen => exact h.cancelling hopen
  | cancelSpent | cancelled => simpa using h

theorem doesAll {acts : List Act} (h : Recounts es st) (hdoes : DoesAll acts st fs st') : Recounts (es ++ fs) st' := by
  induction hdoes generalizing es with
  | nil => simpa using h
  | cons ha _ ih =>
    rw [← List.append_assoc]
    exact ih (h.does ha)

/-- A timer that is taken while it is spent is passed over. -/
theorem skipping (h : Recounts es st) {t : Alarm} {s : Scheduler (String × List Act)}
    (htimers : st.scheduler.timers = t :: s.timers) (hs : s = { st.scheduler with timers := s.timers, now := t.due })
    (hspent : t.handle ∈ s.spent) : Recounts es { st with scheduler := s } := by
  rw [hs] at hspent ⊢
  refine { h with known := fun u hu => h.known u (by simp [htimers, hu]), waiting := fun u hu hopen => ?_ }
  have hin := h.waiting u hu hopen
  rw [htimers] at hin
  rcases List.mem_cons.1 hin with rfl | hin
  · exact absurd hspent hopen
  · exact hin

/-- A timer that is taken while it is not spent fires. -/
theorem firing (h : Recounts es st) {t : Alarm} {s : Scheduler (String × List Act)}
    (htimers : st.scheduler.timers = t :: s.timers) (hs : s = { st.scheduler with timers := s.timers, now := t.due })
    (hopen : t.handle ∉ s.spent) : Recounts (es ++ [Incident.fired t]) (st.firing s t) := by
  have hspent : s.spent = st.scheduler.spent := by rw [hs]
  have hknown := h.known t (by simp [htimers])
  have hnew := mt (h.spent t.handle).2 (hspent ▸ hopen)
  unfold Stage.firing
  rw [cancel_of_not_mem hopen, hs]
  refine ⟨by simpa using h.handles, fun u hu => ?_, fun u hu hout => ?_, fun j => ?_, fun u hu => ?_, ?_, fun j hj => ?_⟩
  · simpa using h.known u (by simp [htimers, show u ∈ s.timers from hu])
  · simp only [List.mem_cons, not_or] at hout
    have hin := h.waiting u (by simpa using hu) hout.2
    rw [htimers] at hin
    rcases List.mem_cons.1 hin with rfl | hin
    · exact absurd rfl hout.1
    · exact hin
  · simp only [List.mem_cons, h.spent j, alarmsFired_append, alarmsFired_fired, alarmsFired_nil, List.map_append,
      List.map_cons, List.map_nil, handlesCancelled_append, handlesCancelled_fired, handlesCancelled_nil, List.append_nil,
      List.mem_append, List.not_mem_nil, or_false]
    tauto
  · simp only [alarmsFired_append, alarmsFired_fired, alarmsFired_nil, List.mem_append, List.mem_singleton] at hu
    simp only [alarmsSet_append, alarmsSet_fired, alarmsSet_nil, List.append_nil]
    rcases hu with hu | rfl
    · exact h.fired u hu
    · exact hknown
  · simp only [alarmsFired_append, alarmsFired_fired, alarmsFired_nil, List.map_append, List.map_cons, List.map_nil]
    exact List.nodup_append.2 ⟨h.once, List.nodup_singleton _, fun j hj k hk => by
      rintro rfl
      rw [List.mem_singleton.1 hk] at hj
      exact hnew (.inl hj)⟩
  · simp only [handlesCancelled_append, handlesCancelled_fired, handlesCancelled_nil, List.append_nil] at hj
    simp only [alarmsFired_append, alarmsFired_fired, alarmsFired_nil, List.map_append, List.map_cons, List.map_nil,
      List.mem_append, List.mem_singleton, not_or]
    refine ⟨h.apart j hj, ?_⟩
    rintro rfl
    exact hnew (.inr hj)

/-- The timers that wait and are not spent are those that neither fired nor were cancelled. -/
theorem pending (h : Recounts es st) (hsorted : st.scheduler.timers.Nodup) :
    st.scheduler.pending =
      ((alarmsSet es).filter fun t => t.handle ∉ (alarmsFired es).map (·.handle) ∧ t.handle ∉ handlesCancelled es).length := by
  have hset : (alarmsSet es).Nodup := .of_map (·.handle) (h.handles ▸ List.nodup_range)
  refine ((List.perm_ext_iff_of_nodup (hsorted.filter _) (hset.filter _)).2 fun t => ?_).length_eq
  simp only [List.mem_filter, isSpent, Bool.not_eq_true', List.contains_eq_mem, decide_eq_true_eq, decide_eq_false_iff_not]
  rw [← not_or, ← h.spent]
  exact ⟨fun ⟨ht, hopen⟩ => ⟨h.known t ht, hopen⟩, fun ⟨ht, hopen⟩ => ⟨h.waiting t ht hopen, hopen⟩⟩

end Recounts

/-! ## Firing -/

/-- What firing the timers due up to `target` leaves. -/
structure Rung (times delays : Value → Prop) (target : Value) (st : Stage) (es : List Incident) (st' : Stage) : Prop where
  lined : Lined times delays st'.scheduler
  late : ∀ t ∈ st'.scheduler.timers, earlier target t.due = true
  sorted : (alarmsFired es).Pairwise Before
  sources : ∀ t ∈ alarmsFired es, t ∈ st.scheduler.timers ∨ st.scheduler.issued ≤ t.handle
  times : ∀ t ∈ alarmsFired es, times t.due
  due : ∀ t ∈ alarmsFired es, earlier target t.due = false
  ahead : ∀ t ∈ alarmsFired es, earlier t.due st.scheduler.now = false
  log : st'.fired = st.fired ++ (alarmsFired es).map fun t => (t.callback.1, t.due)

theorem Lined.firing {times delays : Value → Prop} {s : Scheduler (String × List Act)} {t : Alarm} (h : Lined times delays s)
    (st : Stage) (hopen : t.handle ∉ s.spent) : Lined times delays (st.firing s t).scheduler := by
  unfold Stage.firing
  rw [cancel_of_not_mem hopen]
  exact ⟨h.now, h.sorted, h.issued, h.times, h.ahead, h.calls⟩

section

variable {times delays spans : Value → Prop} (clock : Clock times delays spans)
include clock

theorem Lined.does {a : Act} {st st' : Stage} {es : List Incident} (h : Lined times delays st.scheduler)
    (ha : a.Calls delays) (hdoes : Does a st es st') : Lined times delays st'.scheduler := by
  cases hdoes with
  | callLater hwait hdue =>
    obtain ⟨wait, due, hwait', hdue', htimes, hahead⟩ := clock.waits h.now ha.1
    cases hwait.symm.trans hwait'
    cases hdue.symm.trans hdue'
    exact h.setting clock htimes hahead rfl ha.2
  | cancel hlabel hopen =>
    rw [cancel_of_not_mem hopen]
    exact ⟨h.now, h.sorted, h.issued, h.times, h.ahead, h.calls⟩
  | cancelSpent | cancelled => exact h

theorem Lined.doesAll {acts : List Act} {st st' : Stage} {es : List Incident} (h : Lined times delays st.scheduler)
    (hacts : AllCall delays acts) (hdoes : DoesAll acts st es st') : Lined times delays st'.scheduler := by
  induction hdoes with
  | nil => exact h
  | cons ha _ ih => exact ih (h.does clock hacts.1 ha) hacts.2

/-- With the first timer taken, the clock shows when it was due. -/
theorem Lined.taking {s s' : Scheduler (String × List Act)} {t : Alarm} (h : Lined times delays s)
    (htimers : s.timers = t :: s'.timers) (hs : s' = { s with timers := s'.timers, now := t.due }) :
    Lined times delays s' ∧ ∀ u ∈ s'.timers, Before t u := by
  have htimes := h.times
  have hsorted := h.sorted
  rw [htimers] at htimes hsorted
  rw [List.pairwise_cons] at hsorted
  have hin {u : Alarm} (hu : u ∈ s'.timers) : u ∈ s.timers := by simp [htimers, hu]
  rw [hs]
  exact ⟨⟨htimes t (by simp), hsorted.2, fun u hu => h.issued u (hin hu), fun u hu => h.times u (hin hu),
    fun u hu => (hsorted.1 u hu).elim (clock.asymmetric (htimes t (by simp)) (h.times u (hin hu))) And.left,
    fun u hu => h.calls u (hin hu)⟩, hsorted.1⟩

/-- The timers that ring up to a target are those that were due by then, in order. -/
theorem Clock.rung {target : Value} {st st' : Stage} {es : List Incident} (htarget : times target)
    (hfires : Fires target st es st') (h : Lined times delays st.scheduler) : Rung times delays target st es st' := by
  induction hfires with
  | done hnone =>
    exact ⟨h, clock.late_of_next? h htarget hnone, .nil, nofun, nofun, nofun, nofun, by simp⟩
  | @skip st st' t s es hnext hspent hrest ih =>
    obtain ⟨hdue, htimers, hs⟩ := clock.eq_of_next? h htarget hnext
    obtain ⟨hlined, hafter⟩ := h.taking clock htimers hs
    have hrung := ih hlined
    have hissued : s.issued = st.scheduler.issued := by rw [hs]
    have hnow : s.now = t.due := by rw [hs]
    refine { hrung with sources := fun u hu => ?_, ahead := fun u hu => ?_ }
    · rcases hrung.sources u hu with hu | hu
      · exact .inl (by simp [htimers, show u ∈ s.timers from hu])
      · exact .inr (hissued ▸ hu)
    · exact clock.transitive h.now hlined.now (hrung.times u hu) (hnow ▸ h.ahead t (by simp [htimers])) (hrung.ahead u hu)
  | @fire st mid st' t s es fs hnext hopen hacts hrest ih =>
    obtain ⟨hdue, htimers, hs⟩ := clock.eq_of_next? h htarget hnext
    obtain ⟨hlined, hafter⟩ := h.taking clock htimers hs
    have hin : t ∈ st.scheduler.timers := by simp [htimers]
    have hnow : s.now = t.due := by rw [hs]
    have hissued : s.issued = st.scheduler.issued := by rw [hs]
    have hcancel := cancel_of_not_mem hopen
    have hfiring := hlined.firing st hopen
    have hcalled := hacts.called
    have hmid := hfiring.doesAll clock (h.calls t hin) hacts
    have hrung := ih hmid
    have hnowMid : mid.scheduler.now = t.due := by
      rw [hcalled.now, Stage.firing, hcancel]
      exact hnow
    have hissuedMid : st.scheduler.issued ≤ mid.scheduler.issued := by
      have := hcalled.issued
      rw [Stage.firing, hcancel] at this
      exact hissued ▸ this
    -- Whatever fires later waited behind the timer or was set since, when the clock showed its time.
    have hsources {u : Alarm} (hu : u ∈ alarmsFired fs) : u ∈ s.timers ∨ st.scheduler.issued ≤ u.handle := by
      rcases hrung.sources u hu with hu | hu
      · rcases hcalled.timers u hu with hu | hu
        · rw [Stage.firing, hcancel] at hu
          exact .inl hu
        · rw [Stage.firing, hcancel] at hu
          exact .inr (hissued ▸ hu)
      · exact .inr (Nat.le_trans hissuedMid hu)
    have hbefore {u : Alarm} (hu : u ∈ alarmsFired fs) : Before t u := by
      rcases hsources hu with hs | hs
      · exact hafter u hs
      · exact .inr ⟨hnowMid ▸ hrung.ahead u hu, Nat.lt_of_lt_of_le (h.issued t hin) hs⟩
    have hlist : alarmsFired (.fired t :: es ++ fs) = t :: alarmsFired fs := by
      simp [hacts.alarmsFired]
    refine ⟨hrung.lined, hrung.late, ?_, ?_, ?_, ?_, ?_, ?_⟩
    · exact hlist ▸ List.pairwise_cons.2 ⟨fun u hu => hbefore hu, hrung.sorted⟩
    · rw [hlist, List.forall_mem_cons]
      exact ⟨.inl hin, fun u hu => (hsources hu).imp_left fun hu => by simp [htimers, hu]⟩
    · rw [hlist, List.forall_mem_cons]
      exact ⟨h.times t hin, hrung.times⟩
    · rw [hlist, List.forall_mem_cons]
      exact ⟨hdue, hrung.due⟩
    · rw [hlist, List.forall_mem_cons]
      refine ⟨h.ahead t hin, fun u hu => ?_⟩
      exact clock.transitive h.now (h.times t hin) (hrung.times u hu) (h.ahead t hin) (hnowMid ▸ hrung.ahead u hu)
    · rw [hrung.log, hcalled.fired, hlist, Stage.firing, hnow]
      simp

/-- What rings is told of, alarm by alarm. -/
theorem Recounts.fires {target : Value} {st st' : Stage} {es fs : List Incident} (h : Recounts es st)
    (hlined : Lined times delays st.scheduler) (htarget : times target) (hfires : Fires target st fs st') :
    Recounts (es ++ fs) st' := by
  induction hfires generalizing es with
  | done => simpa using h
  | @skip st st' t s fs hnext hspent hrest ih =>
    obtain ⟨-, htimers, hs⟩ := clock.eq_of_next? hlined htarget hnext
    exact ih (h.skipping htimers hs hspent) (hlined.taking clock htimers hs).1
  | @fire st mid st' t s fs gs hnext hopen hacts hrest ih =>
    obtain ⟨-, htimers, hs⟩ := clock.eq_of_next? hlined htarget hnext
    have hfiring := h.firing htimers hs hopen
    have hlinedFiring := (hlined.taking clock htimers hs).1.firing st hopen
    have hmid := ih (hfiring.doesAll hacts) (hlinedFiring.doesAll clock (hlined.calls t (by simp [htimers])) hacts)
    simpa using hmid

end

/-! ## What the program does -/

namespace Performance

variable {α β : Type}

theorem runOn_bind (x : Performance α) (k : α → Performance β) (st : Stage) :
    Performance.runOn (x >>= k) st = match x.runOn st with
      | (.ok a, mid) => (k a).runOn mid
      | (.error f, mid) => (.error f, mid) := by
  show (ExceptT.bindCont k (x.runOn st).1).run (x.runOn st).2 = _
  generalize x.runOn st = p
  obtain ⟨_ | _, _⟩ := p <;> rfl

@[simp] theorem runOn_pure (a : α) (st : Stage) : Performance.runOn (pure a) st = (.ok a, st) := rfl

@[simp] theorem runOn_throw (f : Fault) (st : Stage) : Performance.runOn (throw f : Performance α) st = (.error f, st) := rfl

@[simp] theorem runOn_get (st : Stage) : Performance.runOn get st = (.ok st, st) := rfl

@[simp] theorem runOn_modify (g : Stage → Stage) (st : Stage) : Performance.runOn (modify g) st = (.ok ⟨⟩, g st) := rfl

@[simp] theorem runOn_ofExcept (x : Except Fault α) (st : Stage) :
    Performance.runOn (MonadExcept.ofExcept x) st = (x, st) := by
  cases x <;> rfl

end Performance

theorem callLater_eq {s : Scheduler (String × List Act)} {delay wait due : Value} {callback : String × List Act}
    (hwait : atLeastZero delay = .ok wait) (hdue : s.now.add wait = .ok due) : s.callLater delay callback =
      .ok ({ s with timers := insert ⟨due, s.issued, callback⟩ s.timers, issued := s.issued + 1 }, s.issued) := by
  unfold callLater
  rw [hwait]
  show (s.now.add wait >>= _) = _
  rw [hdue]
  rfl

theorem runOn_callLater (fire : Value → Performance Nat) {label : String} {delay wait due : Value} {acts : List Act}
    {st : Stage} (hwait : atLeastZero delay = .ok wait) (hdue : st.scheduler.now.add wait = .ok due) :
    (performWith fire (.callLater label delay acts)).runOn st =
      (.ok .none, st.setting ⟨due, st.scheduler.issued, (label, acts)⟩) := by
  simp only [performWith, Performance.runOn_bind, Performance.runOn_get, Performance.runOn_ofExcept,
    callLater_eq hwait hdue]
  rfl

theorem runOn_handleOf (label : String) (st : Stage) : (handleOf label).runOn st = match st.handles.get? label with
    | some h => (.ok h, st)
    | none => (.error (.missing label), st) := by
  unfold handleOf
  rw [Performance.runOn_bind, Performance.runOn_get]
  dsimp only
  cases st.handles.get? label <;> rfl

/-- A label that has a handle keeps one. -/
theorem Does.label {a : Act} {st st' : Stage} {es : List Incident} (h : Does a st es st') {label : String}
    (hnone : st'.handles.get? label = none) : st.handles.get? label = none := by
  cases h with
  | callLater hwait hdue =>
    rw [Stage.setting, Table.get?_set] at hnone
    split at hnone
    · cases hnone
    · exact hnone
  | cancel | cancelSpent | cancelled => exact hnone

section

variable {times delays spans : Value → Prop} (clock : Clock times delays spans)
include clock

/-- A call in the schedule fails for a label that nobody has given, or does what it says. -/
theorem runOn_call (fire : Value → Performance Nat) {a : Act} {st : Stage} (ha : a.Calls delays)
    (hnow : times st.scheduler.now) :
    (∃ label, (performWith fire a).runOn st = (.error (.missing label), st) ∧ st.handles.get? label = none) ∨
      ∃ v es st', (performWith fire a).runOn st = (.ok v, st') ∧ Does a st es st' := by
  cases a with
  | callLater label delay acts =>
    obtain ⟨wait, due, hwait, hdue, -, -⟩ := clock.waits hnow ha.1
    exact .inr ⟨_, _, _, runOn_callLater fire hwait hdue, .callLater hwait hdue⟩
  | cancel label =>
    simp only [performWith, Performance.runOn_bind, runOn_handleOf]
    cases hlabel : st.handles.get? label with
    | none => exact .inl ⟨label, rfl, hlabel⟩
    | some h =>
      by_cases hspent : h ∈ st.scheduler.spent
      · refine .inr ⟨.none, _, _, ?_, .cancelSpent hlabel hspent⟩
        simp only [Performance.runOn_modify, cancel, if_pos hspent]
        rfl
      · exact .inr ⟨_, _, _, rfl, .cancel hlabel hspent⟩
  | cancelled label =>
    simp only [performWith, Performance.runOn_bind, runOn_handleOf]
    cases hlabel : st.handles.get? label with
    | none => exact .inl ⟨label, rfl, hlabel⟩
    | some h => exact .inr ⟨_, _, _, rfl, .cancelled hlabel⟩
  | advance | raise => exact ha.elim

/-- So do several calls, one after the other. -/
theorem runOn_calls (fire : Value → Performance Nat) {acts : List Act} {st : Stage} (hacts : AllCall delays acts)
    (hnow : times st.scheduler.now) :
    (∃ label st', Performance.runOn (acts.forM fun a => do let _ ← performWith fire a) st = (.error (.missing label), st') ∧
        st.handles.get? label = none) ∨
      ∃ es st', Performance.runOn (acts.forM fun a => do let _ ← performWith fire a) st = (.ok ⟨⟩, st') ∧
        DoesAll acts st es st' := by
  induction acts generalizing st with
  | nil => exact .inr ⟨_, _, rfl, .nil⟩
  | cons a rest ih =>
    simp only [List.forM_eq_forM, List.forM_cons] at ih ⊢
    rcases runOn_call clock fire hacts.1 hnow with ⟨label, hrun, hnone⟩ | ⟨v, es, mid, hrun, hdoes⟩
    · refine .inl ⟨label, st, ?_, hnone⟩
      simp only [Performance.runOn_bind, hrun]
    · rcases ih hacts.2 (show times mid.scheduler.now from hdoes.called.now ▸ hnow) with
        ⟨label, st', hrest, hnone⟩ | ⟨fs, st', hrest, hall⟩
      · refine .inl ⟨label, st', ?_, hdoes.label hnone⟩
        simp only [Performance.runOn_bind, hrun, Performance.runOn_pure, hrest]
      · refine .inr ⟨_, st', ?_, .cons hdoes hall⟩
        simp only [Performance.runOn_bind, hrun, Performance.runOn_pure, hrest]

end

/-- How many timers can fire in all, those that are set on the way among them. -/
def load (ts : List Alarm) : Nat := (ts.map fun t => 1 + weights t.callback.2).sum

theorem load_insert (t : Alarm) (ts : List Alarm) : load (insert t ts) = 1 + weights t.callback.2 + load ts := by
  induction ts with
  | nil => rfl
  | cons u rest ih =>
    unfold insert
    split
    · rfl
    · simp only [load, List.map_cons, List.sum_cons] at ih ⊢
      omega

theorem fuelFor_eq (st : Stage) (a : Act) : fuelFor st a = 1 + a.weight + load st.scheduler.timers := by
  have hfold (ts : List Alarm) (n : Nat) : ts.foldl (fun n t => n + 1 + weights t.callback.2) n = n + load ts := by
    induction ts generalizing n with
    | nil => rfl
    | cons t rest ih =>
      rw [List.foldl_cons, ih, load, load, List.map_cons, List.sum_cons]
      omega
  exact hfold _ _

theorem Does.load {a : Act} {st st' : Stage} {es : List Incident} (h : Does a st es st') :
    load st'.scheduler.timers ≤ load st.scheduler.timers + a.weight := by
  cases h with
  | callLater hwait hdue =>
    show Scheduler.load (insert _ _) ≤ _
    rw [load_insert, Act.weight]
    exact Nat.le_of_eq (Nat.add_comm _ _)
  | cancel hlabel hopen =>
    rw [cancel_of_not_mem hopen]
    exact Nat.le_add_right _ _
  | cancelSpent | cancelled => exact Nat.le_add_right _ _

theorem DoesAll.load {acts : List Act} {st st' : Stage} {es : List Incident} (h : DoesAll acts st es st') :
    load st'.scheduler.timers ≤ load st.scheduler.timers + weights acts := by
  induction h with
  | nil => exact Nat.le_add_right _ _
  | cons ha _ ih =>
    have := ha.load
    rw [weights]
    omega

theorem DoesAll.label {acts : List Act} {st st' : Stage} {es : List Incident} (h : DoesAll acts st es st') {label : String}
    (hnone : st'.handles.get? label = none) : st.handles.get? label = none := by
  induction h with
  | nil => exact hnone
  | cons ha _ ih => exact ha.label (ih hnone)

section

variable {times delays spans : Value → Prop} (clock : Clock times delays spans)
include clock

/-- Each timer that is taken leaves less to fire, so that the fuel lasts. -/
theorem runOn_fireDue (fuel : Nat) {target : Value} {st : Stage} (htarget : times target)
    (hlined : Lined times delays st.scheduler) (hfuel : load st.scheduler.timers < fuel) :
    (∃ label st', (fireDue fuel target).runOn st = (.error (.missing label), st') ∧ st.handles.get? label = none) ∨
      ∃ es st', (fireDue fuel target).runOn st = (.ok (alarmsFired es).length, st') ∧ Fires target st es st' := by
  induction fuel generalizing st with
  | zero => exact absurd hfuel (Nat.not_lt_zero _)
  | succ fuel ih =>
    cases hnext : st.scheduler.next? target with
    | error f =>
      cases hs : st.scheduler.timers with
      | nil => simp [next?, hs] at hnext
      | cons t rest =>
        rw [clock.next?_cons hlined htarget hs] at hnext
        cases hnext
    | ok out =>
      cases out with
      | none =>
        refine .inr ⟨[], st, ?_, .done hnext⟩
        simp only [fireDue, Performance.runOn_bind, Performance.runOn_get, Performance.runOn_ofExcept, hnext]
        rfl
      | some p =>
        obtain ⟨t, s⟩ := p
        obtain ⟨hdue, htimers, hs⟩ := clock.eq_of_next? hlined htarget hnext
        have htaken := (hlined.taking clock htimers hs).1
        have hload : load st.scheduler.timers = 1 + weights t.callback.2 + load s.timers := by
          rw [htimers]
          rfl
        by_cases hspent : t.handle ∈ s.spent
        · have hrun : (fireDue (fuel + 1) target).runOn st = (fireDue fuel target).runOn { st with scheduler := s } := by
            simp only [fireDue, Performance.runOn_bind, Performance.runOn_get, Performance.runOn_ofExcept, hnext,
              Performance.runOn_modify, isSpent, List.contains_eq_mem, decide_eq_true hspent, if_true]
          rw [hrun]
          rcases @ih { st with scheduler := s } htaken (by simp only; omega) with
            ⟨label, st', hrest, hnone⟩ | ⟨es, st', hrest, hfires⟩
          · exact .inl ⟨label, st', hrest, hnone⟩
          · exact .inr ⟨es, st', hrest, .skip hnext hspent hfires⟩
        · have hfiring := htaken.firing st hspent
          have hrun : (fireDue (fuel + 1) target).runOn st = Performance.runOn (do
              t.callback.2.forM fun a => do let _ ← performWith (fireDue fuel) a
              return 1 + (← fireDue fuel target)) (st.firing s t) := by
            simp only [fireDue, Performance.runOn_bind, Performance.runOn_get, Performance.runOn_ofExcept, hnext,
              Performance.runOn_modify, isSpent, List.contains_eq_mem, decide_eq_false hspent, Bool.false_eq_true, if_false]
            rfl
          rw [hrun, Performance.runOn_bind]
          rcases runOn_calls clock (fireDue fuel) (hlined.calls t (by simp [htimers])) hfiring.now with
            ⟨label, st', hacts, hnone⟩ | ⟨es, mid, hacts, hall⟩
          · exact .inl ⟨label, st', by rw [hacts], hnone⟩
          · have hmid := hfiring.doesAll clock (hlined.calls t (by simp [htimers])) hall
            have hloadMid := hall.load
            rw [Stage.firing, cancel_of_not_mem hspent] at hloadMid
            rw [hacts]
            dsimp only
            rw [Performance.runOn_bind]
            rcases @ih mid hmid (by simp only at hloadMid; omega) with
              ⟨label, st', hrest, hnone⟩ | ⟨fs, st', hrest, hfires⟩
            · exact .inl ⟨label, st', by rw [hrest], hall.label hnone⟩
            · refine .inr ⟨_, st', ?_, .fire hnext hspent hall hfires⟩
              rw [hrest]
              simp [hall.alarmsFired, Nat.add_comm]

/-- Time goes on to a target, unless a call in between fails. -/
theorem runOn_advance {seconds : Value} {st : Stage} (hspan : spans seconds) (hlined : Lined times delays st.scheduler) :
    ∃ target, st.scheduler.now.add seconds = .ok target ∧ times target ∧ earlier target st.scheduler.now = false ∧
      ((∃ label st', (perform (.advance seconds)).runOn st = (.error (.missing label), st') ∧
          st.handles.get? label = none) ∨
        ∃ es st', (perform (.advance seconds)).runOn st = (.ok (.int (alarmsFired es).length), st'.showing target) ∧
          Fires target st es st') := by
  obtain ⟨target, hadd, htimes, hforth⟩ := clock.passes hlined.now hspan
  refine ⟨target, hadd, htimes, hforth, ?_⟩
  have hrun : (perform (.advance seconds)).runOn st = match (fireDue (fuelFor st (.advance seconds)) target).runOn st with
      | (.ok n, st') => (.ok (.int n), st'.showing target)
      | (.error f, st') => (.error f, st') := by
    simp only [perform, performWith, moveBy, Performance.runOn_bind, Performance.runOn_get, Performance.runOn_ofExcept, hadd]
    generalize (fireDue (fuelFor st (.advance seconds)) target).runOn st = p
    obtain ⟨_ | _, _⟩ := p <;> rfl
  rw [hrun]
  rcases runOn_fireDue clock (fuelFor st (.advance seconds)) htimes hlined (by rw [fuelFor_eq]; omega) with
    ⟨label, st', hfire, hnone⟩ | ⟨es, st', hfire, hfires⟩
  · exact .inl ⟨label, st', by rw [hfire], hnone⟩
  · exact .inr ⟨es, st', by rw [hfire], hfires⟩

end

/-! ## Courses -/

/-- What an advance to `target` does after a history: it fires the timers that are due and were not cancelled, those among
them that are set on the way, in order, each while the clock shows when it was due. -/
structure Advance (es fs : List Incident) (target : Value) (st st' : Stage) : Prop where
  fired (t : Alarm) : t ∈ alarmsFired fs ↔ t ∈ alarmsSet (es ++ fs) ∧ earlier target t.due = false ∧ t ∉ alarmsFired es ∧
    t.handle ∉ handlesCancelled (es ++ fs)
  sorted : (alarmsFired fs).Pairwise Before
  shown : st'.fired = st.fired ++ (alarmsFired fs).map fun t => (t.callback.1, t.due)
  ahead : ∀ t ∈ alarmsFired fs, earlier t.due st.scheduler.now = false
  now : st'.scheduler.now = target
  forth : earlier target st.scheduler.now = false

/-- A course goes on by setting a timer. -/
theorem Course.setting {delays spans : Value → Prop} {start delay wait due : Value} {es : List Incident} {st : Stage}
    (label : String) (acts : List Act) (h : Course delays spans start es st) (hdelay : delays delay)
    (hacts : AllCall delays acts) (hwait : atLeastZero delay = .ok wait) (hdue : st.scheduler.now.add wait = .ok due) :
    Course delays spans start (es ++ [Incident.set ⟨due, st.scheduler.issued, (label, acts)⟩])
      (st.setting ⟨due, st.scheduler.issued, (label, acts)⟩) :=
  .calls (a := .callLater label delay acts) h ⟨hdelay, hacts⟩
    (runOn_callLater (fireDue (fuelFor st (.callLater label delay acts))) hwait hdue) (.callLater hwait hdue)

section

variable {times delays spans : Value → Prop} {start : Value} (clock : Clock times delays spans) (hstart : times start)
include clock

theorem Lined.showing {st : Stage} {target : Value} (h : Lined times delays st.scheduler) (htarget : times target)
    (hlate : ∀ t ∈ st.scheduler.timers, earlier target t.due = true) :
    Lined times delays (st.showing target).scheduler where
  now := htarget
  sorted := h.sorted
  issued := h.issued
  times := h.times
  ahead t ht := clock.asymmetric htarget (h.times t ht) (hlate t ht)
  calls := h.calls

theorem Lined.nodup {s : Scheduler (String × List Act)} (h : Lined times delays s) : s.timers.Nodup := by
  refine h.sorted.imp_of_mem fun {t u} ht _ hb => ?_
  rintro rfl
  rcases hb with hb | hb
  · have := clock.asymmetric (h.times t ht) (h.times t ht) hb
    rw [hb] at this
    cases this
  · exact Nat.lt_irrefl _ hb.2

include hstart

theorem Course.kept {es : List Incident} {st : Stage} (h : Course delays spans start es st) :
    Lined times delays st.scheduler ∧ Recounts es st := by
  induction h with
  | begins => exact ⟨⟨hstart, .nil, nofun, nofun, nofun, nofun⟩, ⟨rfl, nofun, nofun, by simp, nofun, .nil, nofun⟩⟩
  | calls _ ha _ hdoes ih => exact ⟨ih.1.does clock ha hdoes, ih.2.does hdoes⟩
  | advances _ hspan _ htarget hfires ih =>
    obtain ⟨target, hadd, htimes, -⟩ := clock.passes ih.1.now hspan
    cases htarget.symm.trans hadd
    have hrung := clock.rung htimes hfires ih.1
    have hafter := ih.2.fires clock ih.1 htimes hfires
    exact ⟨hrung.lined.showing clock htimes hrung.late, { hafter with }⟩

/-- An advance goes through what was due by the target, and shows the target. -/
theorem Course.advance {es fs : List Incident} {st st' : Stage} {target : Value} (h : Course delays spans start es st)
    (htarget : times target) (hforth : earlier target st.scheduler.now = false) (hfires : Fires target st fs st') :
    Advance es fs target st (st'.showing target) := by
  obtain ⟨hlined, hrecounts⟩ := h.kept clock hstart
  have hrung := clock.rung htarget hfires hlined
  have hafter := hrecounts.fires clock hlined htarget hfires
  refine ⟨fun t => ⟨fun ht => ?_, fun ⟨hset, hdue, hnew, hopen⟩ => ?_⟩, hrung.sorted, hrung.log, hrung.ahead, rfl, hforth⟩
  · have hin : t ∈ alarmsFired (es ++ fs) := by simp [ht]
    refine ⟨hafter.fired t hin, hrung.due t ht, fun hold => ?_, fun hcancelled => ?_⟩
    · have honce := hafter.once
      rw [alarmsFired_append, List.map_append] at honce
      exact (List.nodup_append.1 honce).2.2 _ (List.mem_map_of_mem hold) _ (List.mem_map_of_mem ht) rfl
    · exact hafter.apart _ hcancelled (List.mem_map_of_mem hin)
  · -- A timer that were left would be due after the target, so it is spent, and not by a cancellation.
    have hspent : t.handle ∈ st'.scheduler.spent := by
      by_contra hout
      rw [hrung.late t (hafter.waiting t hset hout)] at hdue
      cases hdue
    obtain ⟨u, hu, hsame⟩ := List.mem_map.1 (((hafter.spent _).1 hspent).resolve_right hopen)
    have hnodup : ((alarmsSet (es ++ fs)).map (·.handle)).Nodup := hafter.handles ▸ List.nodup_range
    cases List.inj_on_of_nodup_map hnodup (hafter.fired u hu) hset hsame
    exact (List.mem_append.1 (alarmsFired_append es fs ▸ hu)).resolve_left hnew

end

/-! ## The clock of the program -/

/-- The times of a clock that started at zero: numbers without a sign. -/
def IsTime (v : Value) : Prop := ∃ x : Double, v = .float x ∧ x.bits.toNat ≤ Double.infinityWord

theorem rank_of_le {x : Double} (h : x.bits.toNat ≤ Double.infinityWord) : x.isNaN = false ∧ x.rank = x.bits.toNat := by
  have hsign : x.bits.toNat < Double.signWord := Nat.lt_of_le_of_lt h (by decide)
  have hmagnitude : x.magnitude = x.bits.toNat := Nat.mod_eq_of_lt hsign
  have hpositive : x.isNegative = false := decide_eq_false (Nat.not_le.2 hsign)
  refine ⟨decide_eq_false (hmagnitude ▸ Nat.not_lt.2 h), ?_⟩
  rw [Double.rank, Double.signed, hpositive, hmagnitude]
  rfl

/-- A number that is positive has no sign. -/
theorem le_of_rank_pos {x : Double} (hnan : x.isNaN = false) (h : 0 < x.rank) : x.bits.toNat ≤ Double.infinityWord := by
  rw [Double.rank, Double.signed] at h
  split at h
  · omega
  · rename_i hsign
    rw [Double.isNegative, Bool.not_eq_true, decide_eq_false_iff_not, Nat.not_le] at hsign
    have := of_decide_eq_false hnan
    rw [Double.magnitude, Nat.mod_eq_of_lt hsign] at this
    exact Nat.not_lt.1 this

theorem compare_float {x y : Double} (hx : x.isNaN = false) (hy : y.isNaN = false) (r : Value.Relation) :
    Value.order r (.float x) (.float y) = .ok (r.holds (compare x.rank y.rank)) := by
  show Except.ok (Option.any r.holds (if x.isNaN || y.isNaN then none else some (compare x.rank y.rank))) = _
  rw [hx, hy]
  rfl

theorem earlier_float {x y : Double} (hx : x.isNaN = false) (hy : y.isNaN = false) :
    earlier (.float x) (.float y) = decide (x.rank < y.rank) := by
  rw [earlier, compare_float hx hy]
  show (compare x.rank y.rank).isLT = _
  rw [Bool.eq_iff_iff, decide_eq_true_iff]
  exact Ordering.isLT_iff_eq_lt.trans Int.compare_eq_lt

theorem atLeastZero_eq {x : Double} (hx : x.isNaN = false) : atLeastZero (.float x) =
    .ok (if (compare x.rank Double.zero.rank).isGT then .float x else .float .zero) := by
  unfold atLeastZero Value.larger
  rw [compare_float hx (by decide)]
  rfl

theorem atLeastZero_float {x : Double} (hx : x.isNaN = false) :
    ∃ y : Double, atLeastZero (.float x) = .ok (.float y) ∧ y.bits.toNat ≤ Double.infinityWord := by
  rw [atLeastZero_eq hx]
  split
  · rename_i hpositive
    exact ⟨x, rfl, le_of_rank_pos hx (Int.compare_eq_gt.1 (Ordering.isGT_iff_eq_gt.1 hpositive))⟩
  · exact ⟨.zero, rfl, Nat.zero_le _⟩

/-- A number that is not negative has no sign, or is the zero that has one. -/
theorem le_of_rank_nonneg {x : Double} (hnan : x.isNaN = false) (h : 0 ≤ x.rank) :
    x.bits.toNat ≤ Double.infinityWord ∨ x = ⟨0x8000000000000000⟩ := by
  rcases Int.lt_or_eq_of_le h with h | h
  · exact .inl (le_of_rank_pos hnan h)
  · have hmagnitude : x.bits.toNat % Double.signWord = 0 := by
      rw [Double.rank, Double.signed] at h
      show x.magnitude = 0
      split at h <;> omega
    have hlt : x.bits.toNat < 2 ^ 64 := x.bits.toNat_lt
    have hsign : Double.signWord = 2 ^ 63 := rfl
    rw [hsign] at hmagnitude
    by_cases hzero : x.bits.toNat = 0
    · exact .inl (hzero ▸ Nat.zero_le _)
    · refine .inr (congrArg Double.mk (UInt64.toNat_inj.1 ?_))
      show x.bits.toNat = 9223372036854775808
      omega

def IsDelay (v : Value) : Prop := ∃ x : Double, v = .float x ∧ x.isNaN = false
def IsSpan (v : Value) : Prop := ∃ x : Double, v = .float x ∧ x.isNaN = false ∧ 0 ≤ x.rank

/-- Doubles are such a clock from zero on, for all delays that are numbers. -/
theorem clock_float : Clock IsTime IsDelay IsSpan where
  compares := by
    rintro _ _ ⟨x, rfl, hx⟩ ⟨y, rfl, hy⟩
    rw [compare_float (rank_of_le hx).1 (rank_of_le hy).1, earlier_float (rank_of_le hy).1 (rank_of_le hx).1,
      ← decide_not]
    congr 1
    rw [Bool.eq_iff_iff, decide_eq_true_iff, Int.not_lt]
    exact Int.isLE_compare
  asymmetric := by
    rintro _ _ ⟨x, rfl, hx⟩ ⟨y, rfl, hy⟩
    rw [earlier_float (rank_of_le hx).1 (rank_of_le hy).1, earlier_float (rank_of_le hy).1 (rank_of_le hx).1]
    simp only [decide_eq_true_eq, decide_eq_false_iff_not]
    omega
  transitive := by
    rintro _ _ _ ⟨x, rfl, hx⟩ ⟨y, rfl, hy⟩ ⟨z, rfl, hz⟩
    rw [earlier_float (rank_of_le hy).1 (rank_of_le hx).1, earlier_float (rank_of_le hz).1 (rank_of_le hy).1,
      earlier_float (rank_of_le hz).1 (rank_of_le hx).1]
    simp only [decide_eq_false_iff_not]
    omega
  waits := by
    rintro _ _ ⟨t, rfl, ht⟩ ⟨d, rfl, hd⟩
    obtain ⟨wait, hwait, hbound⟩ := atLeastZero_float hd
    obtain ⟨hforth, hsum⟩ := Double.toNat_bits_add ht hbound
    refine ⟨_, .float (t.add wait), hwait, rfl, ⟨_, rfl, hsum⟩, ?_⟩
    rw [earlier_float (rank_of_le hsum).1 (rank_of_le ht).1, (rank_of_le hsum).2, (rank_of_le ht).2,
      decide_eq_false_iff_not]
    omega
  passes := by
    rintro _ _ ⟨t, rfl, ht⟩ ⟨s, rfl, hs, hforth⟩
    have hsum : t.bits.toNat ≤ (t.add s).bits.toNat ∧ (t.add s).bits.toNat ≤ Double.infinityWord := by
      rcases le_of_rank_nonneg hs hforth with hbound | rfl
      · exact Double.toNat_bits_add ht hbound
      · rw [Double.toNat_bits_add_negZero ht]
        exact ⟨Nat.le_refl _, ht⟩
    refine ⟨.float (t.add s), rfl, ⟨_, rfl, hsum.2⟩, ?_⟩
    rw [earlier_float (rank_of_le hsum.2).1 (rank_of_le ht).1, (rank_of_le hsum.2).2, (rank_of_le ht).2,
      decide_eq_false_iff_not]
    omega

end FlowGraph.Scheduler
