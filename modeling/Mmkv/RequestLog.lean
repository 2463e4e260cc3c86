import Mmkv.ByteReaders
import Mathlib.Data.List.Perm.Basic

/-!
# The request log

Producers append records to a current block, under a lock.  A full block goes to the end
of a list.  A background thread takes the blocks, the current one last, and writes them
to the file without the lock.

The steps of the threads interleave in any way.  A call of `Append` is one step, since it
holds the lock all along.  The background thread goes through its loop statement by
statement; between the two halves of its critical section it waits, without the lock.
-/

namespace Mmkv

open List

namespace RequestLog

/-- `BUFFER_SIZE`. -/
def bufferSize : Nat :=
  65536

/-- The bytes of one call of `Append`, which one buffer can hold.  A logged request is two
calls, one for its length and one for itself. -/
structure Record where
  bytes : Bytes
  fits : bytes.length ≤ bufferSize

/-- `FixedBuffer<BUFFER_SIZE>`, assumed to append the bytes it is given where they fit. -/
structure Block where
  data : Bytes
  fits : data.length ≤ bufferSize

namespace Block

def reset : Block :=
  ⟨[], Nat.zero_le _⟩

def avali (blk : Block) : Nat :=
  bufferSize - blk.data.length

def append (blk : Block) (bytes : Bytes) (h : bytes.length ≤ blk.avali) : Block where
  data := blk.data ++ bytes
  fits := by
    have := blk.fits
    rw [length_append]
    unfold avali at h
    omega

theorem length_take_avali (blk : Block) (bytes : Bytes) :
    (bytes.take blk.avali).length ≤ blk.avali :=
  length_take_le _ _

theorem length_drop_avali (blk : Block) (record : Record) :
    (record.bytes.drop blk.avali).length ≤ reset.avali := by
  have := record.fits
  rw [length_drop]
  change _ ≤ bufferSize
  omega

end Block

/-- Where the background thread is.  It has counted the latch down before it sets
`running_`; `locking` is after a look at `running_`, `waiting` in `WaitForSeconds`. -/
inductive Background where
  | starting
  | looping
  | locking
  | waiting
  | writing (blks : List Block)
  | exited

end RequestLog

structure RequestLog where
  curBlk : RequestLog.Block
  blks : List RequestLog.Block
  running : Bool
  background : RequestLog.Background
  file : Bytes

namespace RequestLog

/-- After `Start` has returned. -/
def new : RequestLog :=
  ⟨.reset, [], false, .starting, []⟩

def append (log : RequestLog) (record : Record) : RequestLog :=
  if h : record.bytes.length ≤ log.curBlk.avali then
    { log with curBlk := log.curBlk.append record.bytes h }
  else
    { log with
      blks := log.blks ++ [log.curBlk.append (record.bytes.take log.curBlk.avali)
        (log.curBlk.length_take_avali _)]
      curBlk := Block.reset.append (record.bytes.drop log.curBlk.avali)
        (log.curBlk.length_drop_avali record) }

def takeBlocks (log : RequestLog) : RequestLog :=
  { log with
    blks := []
    curBlk := .reset
    background := .writing (log.blks ++ [log.curBlk]) }

def step (log : RequestLog) : Option RequestLog :=
  match log.background with
  | .starting => some { log with running := true, background := .looping }
  | .looping =>
    if log.running then some { log with background := .locking }
    else some { log with background := .exited }
  | .locking =>
    if log.blks.isEmpty then some { log with background := .waiting }
    else some log.takeBlocks
  | .waiting => some log.takeBlocks
  | .writing (blk :: blks) =>
    some { log with file := log.file ++ blk.data, background := .writing blks }
  | .writing [] => some { log with background := .looping }
  | .exited => none

/-- A step of one of the threads.  `stop` is the first statement of `Stop`, which returns
when the background thread has exited. -/
inductive Event where
  | append (thread : Nat) (record : Record)
  | background
  | stop

def perform (log : RequestLog) : Event → Option RequestLog
  | .append _ record => some (log.append record)
  | .background => log.step
  | .stop => some { log with running := false }

def run (log : RequestLog) (events : List Event) : Option RequestLog :=
  events.foldlM perform log

def records : List Event → List (Nat × Record)
  | [] => []
  | .append thread record :: events => (thread, record) :: records events
  | .background :: events => records events
  | .stop :: events => records events

def contents (appended : List (Nat × Record)) : Bytes :=
  appended.flatMap fun entry => entry.2.bytes

/-- The file has the records of `before`, each once and in one piece, those of a thread in
its order.  What else it has are whole records of `later`, behind them. -/
def Holds (before later : List (Nat × Record)) (file : Bytes) : Prop :=
  ∃ kept rest, file = contents kept ++ contents rest ∧ kept.Perm before ∧
    (∀ thread, kept.filter (fun entry => entry.1 = thread) =
      before.filter (fun entry => entry.1 = thread)) ∧
    rest <+: later

/-! ## Where the bytes are -/

def taken (log : RequestLog) : Bytes :=
  match log.background with
  | .writing blks => blks.flatMap Block.data
  | _ => []

def buffered (log : RequestLog) : Bytes :=
  log.blks.flatMap Block.data ++ log.curBlk.data

/-- It will go through the critical section, whatever becomes of `running_`. -/
def Sweeps (log : RequestLog) : Prop :=
  log.background = .locking ∨ log.background = .waiting

section

variable (log : RequestLog) (record : Record)
include log record

theorem buffered_append : (log.append record).buffered = log.buffered ++ record.bytes := by
  unfold append
  split
  · simp [buffered, Block.append]
  · simp [buffered, Block.append, Block.reset]

@[simp] theorem background_append : (log.append record).background = log.background := by
  unfold append
  split <;> rfl

@[simp] theorem running_append : (log.append record).running = log.running := by
  unfold append
  split <;> rfl

@[simp] theorem file_append : (log.append record).file = log.file := by
  unfold append
  split <;> rfl

@[simp] theorem taken_append : (log.append record).taken = log.taken := by
  simp [taken]

end

theorem taken_takeBlocks (log : RequestLog) : log.takeBlocks.taken = log.buffered := by
  simp [takeBlocks, taken, buffered]

theorem buffered_takeBlocks (log : RequestLog) : log.takeBlocks.buffered = [] := rfl

variable {log log' : RequestLog}

/-- A step of the background thread takes everything there is, or moves no bytes but from
its own blocks to the file. -/
theorem step_cases (h : log.step = some log') : (log.Sweeps ∧ log' = log.takeBlocks) ∨
      (log'.buffered = log.buffered ∧ log'.file ++ log'.taken = log.file ++ log.taken ∧
        (log.Sweeps → log'.Sweeps)) := by
  unfold step at h
  split at h
  case h_1 hbg => cases h; simp [buffered, taken, hbg, Sweeps]
  case h_2 hbg =>
    split at h <;> cases h <;> simp [buffered, taken, hbg, Sweeps]
  case h_3 hbg =>
    split at h
    · cases h
      simp [buffered, taken, hbg, Sweeps]
    · cases h
      exact .inl ⟨.inl hbg, rfl⟩
  case h_4 hbg =>
    cases h
    exact .inl ⟨.inr hbg, rfl⟩
  case h_5 hbg => cases h; simp [buffered, taken, hbg, Sweeps]
  case h_6 hbg => cases h; simp [buffered, taken, hbg, Sweeps]
  case h_7 => cases h

/-! ## Runs -/

theorem records_append (events events' : List Event) :
    records (events ++ events') = records events ++ records events' := by
  induction events with
  | nil => rfl
  | cons e events ih => cases e <;> simp [records, ih]

theorem contents_append (appended appended' : List (Nat × Record)) :
    contents (appended ++ appended') = contents appended ++ contents appended' := by
  simp [contents]

variable {events : List Event}

theorem run_induction {I : List Event → RequestLog → Prop} (hrun : log.run events = some log')
    (hstart : I [] log) (hstep : ∀ past e s s', e ∈ events → I past s → s.perform e = some s' →
      I (past ++ [e]) s') : I events log' := by
  suffices h : ∀ past, I past log → I (past ++ events) log' by
    simpa using h [] hstart
  clear hstart
  induction events generalizing log with
  | nil =>
    intro past hpast
    cases hrun
    simpa using hpast
  | cons e events ih =>
    intro past hpast
    obtain ⟨s, hs, hrest⟩ := Option.bind_eq_some_iff.1 hrun
    have hnext := hstep past e log s mem_cons_self hpast hs
    have hsteps : ∀ past e' s s', e' ∈ events → I past s → s.perform e' = some s' →
        I (past ++ [e']) s' :=
      fun past e' s s' hmem => hstep past e' s s' (mem_cons_of_mem _ hmem)
    simpa using ih hrest hsteps (past ++ [e]) hnext

/-- All that was appended has left the buffers, the first part, or is in them.  The records
of `before` have left them, or will. -/
def Saves (before later : List (Nat × Record)) (log : RequestLog) : Prop :=
  ∃ gone left, gone ++ left = before ++ later ∧
    log.file ++ log.taken = contents gone ∧ log.buffered = contents left ∧
    (log.Sweeps ∨ before <+: gone)

variable {before later : List (Nat × Record)} {e : Event}

theorem Saves.perform (h : Saves before later log) (hperform : log.perform e = some log') :
    Saves before (later ++ records [e]) log' := by
  obtain ⟨gone, left, hsplit, hgone, hleft, hbefore⟩ := h
  cases e with
  | append thread record =>
    cases hperform
    refine ⟨gone, left ++ [(thread, record)], ?_, ?_, ?_, ?_⟩
    · rw [← append_assoc, hsplit, append_assoc]
      rfl
    · simpa using hgone
    · rw [buffered_append, hleft, contents_append]
      simp [contents]
    · simpa [Sweeps] using hbefore
  | stop =>
    cases hperform
    refine ⟨gone, left, ?_, hgone, hleft, hbefore⟩
    simpa [records] using hsplit
  | background =>
    rw [records, records, append_nil]
    rcases step_cases hperform with ⟨hsweeps, rfl⟩ | ⟨hbuffered, hfile, hsweeps⟩
    · have htaken : log.taken = [] := by
        rcases hsweeps with hbg | hbg <;> simp [taken, hbg]
      refine ⟨gone ++ left, [], ?_, ?_, ?_, .inr ?_⟩
      · rw [append_nil, hsplit]
      · rw [taken_takeBlocks, hleft, contents_append, ← hgone, htaken, append_nil]
        rfl
      · rw [buffered_takeBlocks]
        rfl
      · grind
    · exact ⟨gone, left, hsplit, hfile.trans hgone, hbuffered.trans hleft, hbefore.imp_left hsweeps⟩

theorem Saves.run (h : Saves before later log) (hrun : log.run events = some log') :
    Saves before (later ++ records events) log' := by
  refine run_induction (I := fun past s => Saves before (later ++ records past) s) hrun
    (by simpa [records] using h) ?_
  intro past e s s' _ hs hperform
  rw [records_append, ← append_assoc]
  exact hs.perform hperform

theorem saves_new : Saves [] [] new := ⟨[], [], rfl, rfl, rfl, .inr (prefix_refl _)⟩

/-- The file and the thread hold what the first calls of `Append` wrote, each call as a whole,
and the buffers hold what the others wrote. -/
theorem file_of_run (events) (hrun : new.run events = some log) :
    ∃ gone left, gone ++ left = records events ∧ log.file ++ log.taken = contents gone ∧
      log.buffered = contents left := by
  obtain ⟨gone, left, hsplit, hgone, hleft, -⟩ := saves_new.run hrun
  exact ⟨gone, left, hsplit, hgone, hleft⟩

/-- A run of two steps, of which the second one logs a request. -/
theorem file_of_run_append : ∃ r log, new.run [.background, .append 1 r] = some log ∧
    ∃ gone left, gone ++ left = [(1, r)] ∧ log.file ++ log.taken = contents gone ∧
      log.buffered = contents left :=
  ⟨⟨[7], by decide⟩, _, rfl, file_of_run [.background, .append 1 _] rfl⟩

theorem Saves.holds (h : Saves before later log) (hexited : log.background = .exited) :
    Holds before later log.file := by
  obtain ⟨gone, left, hsplit, hgone, -, hbefore⟩ := h
  have htaken : log.taken = [] := by simp [taken, hexited]
  obtain ⟨rest, rfl⟩ : before <+: gone := by
    rcases hbefore with (hbg | hbg) | hbefore
    · simp [hexited] at hbg
    · simp [hexited] at hbg
    · exact hbefore
  rw [append_assoc] at hsplit
  rw [htaken, append_nil, contents_append] at hgone
  exact ⟨before, rest, hgone, .refl _, fun _ => rfl, left, append_cancel_left hsplit⟩

/-! ## The flag -/

/-- The thread does not exit as long as nobody calls `Stop`. -/
def Goes (log : RequestLog) : Prop :=
  log.background = .starting ∨ log.running ∧ log.background ≠ .exited

theorem Goes.perform (h : log.Goes) (he : e ≠ .stop) (hperform : log.perform e = some log') :
    log'.Goes := by
  cases e with
  | append thread record =>
    cases hperform
    simpa [Goes] using h
  | stop => exact absurd rfl he
  | background =>
    change log.step = some log' at hperform
    unfold step at hperform
    rcases h with hbg | ⟨hrunning, hbg⟩
    · rw [hbg] at hperform
      cases hperform
      exact .inr ⟨rfl, by simp⟩
    · refine .inr ?_
      split at hperform
      case h_3 =>
        split at hperform <;> cases hperform <;> exact ⟨hrunning, by simp [takeBlocks]⟩
      case h_7 hexited => exact absurd hexited hbg
      all_goals
        simp only [hrunning, if_true, Option.some.injEq] at hperform
        subst hperform
        simp [takeBlocks, hrunning]

theorem Goes.run (h : log.Goes) (hevents : ∀ e ∈ events, e ≠ .stop)
    (hrun : log.run events = some log') : log'.Goes := by
  refine run_induction (I := fun _ s => s.Goes) hrun h ?_
  exact fun _ e _ _ hmem hs hperform => hs.perform (hevents e hmem) hperform

theorem Goes.not_exited (h : log.Goes) : log.background ≠ .exited := by
  rcases h with hbg | ⟨-, hbg⟩
  · simp [hbg]
  · exact hbg

/-- The thread will find the flag down before it gets to the critical section again. -/
def Ends (log : RequestLog) : Prop :=
  log.running = false ∧
    (log.background = .looping ∨ (∃ blks, log.background = .writing blks) ∨
      log.background = .exited)

theorem Ends.perform (h : log.Ends) (hperform : log.perform e = some log') :
    log'.Ends ∧ log'.file ++ log'.taken = log.file ++ log.taken := by
  obtain ⟨hrunning, hbg⟩ := h
  cases e with
  | append thread record =>
    cases hperform
    simpa [Ends, hrunning] using hbg
  | stop =>
    cases hperform
    exact ⟨⟨rfl, hbg⟩, rfl⟩
  | background =>
    change log.step = some log' at hperform
    unfold step at hperform
    rcases hbg with hbg | ⟨blks, hbg⟩ | hbg
    · rw [hbg] at hperform
      simp only [hrunning, Bool.false_eq_true, if_false, Option.some.injEq] at hperform
      subst hperform
      exact ⟨⟨rfl, .inr (.inr rfl)⟩, by simp [taken, hbg]⟩
    · rw [hbg] at hperform
      cases blks with
      | nil =>
        cases hperform
        exact ⟨⟨hrunning, .inl rfl⟩, by simp [taken, hbg]⟩
      | cons blk blks =>
        cases hperform
        exact ⟨⟨hrunning, .inr (.inl ⟨blks, rfl⟩)⟩, by simp [taken, hbg]⟩
    · grind

theorem Ends.run (h : log.Ends) (hrun : log.run events = some log') :
    log'.Ends ∧ log'.file ++ log'.taken = log.file ++ log.taken := by
  refine run_induction
    (I := fun _ s => s.Ends ∧ s.file ++ s.taken = log.file ++ log.taken) hrun ⟨h, rfl⟩ ?_
  rintro _ e s s' - ⟨hends, hfile⟩ hperform
  obtain ⟨hends', hfile'⟩ := hends.perform hperform
  exact ⟨hends', hfile'.trans hfile⟩

/-! ## Shutdown -/

/-- At the call of `Stop` the background thread is on its way to the critical section, or
nothing has been appended since it was there. -/
def Swept (log : RequestLog) : Prop :=
  log.Sweeps ∨ log.buffered = []

theorem length_contents_perm {kept : List (Nat × Record)} (h : kept.Perm before) :
    (contents kept).length = (contents before).length :=
  (h.flatMap_right _).length_eq

/-- A run with one call of `Stop`, up to its return. -/
theorem stop_keeps_iff (before after : List Event) (stopped log : RequestLog)
    (hbefore : ∀ e ∈ before, e ≠ .stop) (hafter : ∀ e ∈ after, e ≠ .stop)
    (hstopped : new.run before = some stopped)
    (hrun : stopped.run (.stop :: after) = some log)
    (hreturned : log.background = .exited) :
    Holds (records before) (records after) log.file ↔ stopped.Swept := by
  have hgoes : stopped.Goes := Goes.run (.inl rfl) hbefore hstopped
  have hsaves : Saves [] (records before) stopped := saves_new.run hstopped
  obtain ⟨gone, left, hsplit, hgone, hleft, -⟩ := hsaves
  change Option.bind (some _) _ = _ at hrun
  have hrest : RequestLog.run { stopped with running := false } after = some log := hrun
  by_cases hsweeps : stopped.Sweeps
  · -- the thread comes to the critical section with all the records in the buffers
    have hsaves : Saves (records before) [] { stopped with running := false } :=
      ⟨gone, left, by simpa using hsplit, hgone, hleft, .inl hsweeps⟩
    exact iff_of_true ((hsaves.run hrest).holds hreturned) (.inl hsweeps)
  · have hends : Ends { stopped with running := false } := by
      refine ⟨rfl, ?_⟩
      have hnot := hgoes.not_exited
      cases hbg : stopped.background with
      | starting =>
        -- `running_` is set after `Stop` has reset it: `Stop` does not return
        have hgoes' : Goes { stopped with running := false } := .inl hbg
        exact absurd hreturned (hgoes'.run hafter hrest).not_exited
      | looping => exact .inl rfl
      | locking => exact absurd (.inl hbg) hsweeps
      | waiting => exact absurd (.inr hbg) hsweeps
      | writing blks => exact .inr (.inl ⟨blks, rfl⟩)
      | exited => exact absurd hbg hnot
    have hfile : log.file = contents gone := by
      have htaken : log.taken = [] := by simp [taken, hreturned]
      have := (hends.run hrest).2
      rw [htaken, append_nil] at this
      exact this.trans hgone
    have hall : contents (records before) = contents gone ++ stopped.buffered := by
      rw [hleft, ← contents_append, hsplit, nil_append]
    constructor
    · rintro ⟨kept, rest, hkept, hperm, -, -⟩
      have hlength := congrArg List.length hkept
      rw [hfile, length_append, length_contents_perm hperm, hall, length_append] at hlength
      exact .inr (eq_nil_of_length_eq_zero (by omega))
    · intro hswept
      have hempty := hswept.resolve_left hsweeps
      refine ⟨records before, [], ?_, .refl _, fun _ => rfl, nil_prefix⟩
      rw [hall, hempty, hfile]
      simp [contents]

/-- A record that is there when the thread goes to its critical section. -/
theorem waiting_record_kept :
    ∃ (record : Record) (before after : List Event) (stopped log : RequestLog),
      records before = [(0, record)] ∧ record.bytes = [7] ∧
      new.run before = some stopped ∧ stopped.run (.stop :: after) = some log ∧
      log.background = .exited ∧ stopped.Swept ∧
      Holds (records before) (records after) log.file := by
  let record : Record := ⟨[7], by decide⟩
  let before : List Event := [.append 0 record, .background, .background]
  let after : List Event := List.replicate 5 .background
  have hbefore : ∀ e ∈ before, e ≠ .stop := by simp [before]
  have hafter : ∀ e ∈ after, e ≠ .stop := by simp [after]
  refine ⟨record, before, after, _, _, rfl, rfl, rfl, rfl, rfl, .inl (.inl rfl), ?_⟩
  exact (stop_keeps_iff before after _ _ hbefore hafter rfl rfl rfl).2 (.inl (.inl rfl))

/-- A record that is appended while the thread writes the blocks it has taken. -/
theorem late_record_lost :
    ∃ (record : Record) (before after : List Event) (stopped log : RequestLog),
      records before = [(0, record)] ∧ (∀ e ∈ before ++ after, e ≠ .stop) ∧
      new.run before = some stopped ∧ stopped.run (.stop :: after) = some log ∧
      log.background = .exited ∧ log.file = [] ∧
      ¬ Holds (records before) (records after) log.file := by
  let record : Record := ⟨[7], by decide⟩
  let before : List Event := List.replicate 4 .background ++ [.append 0 record]
  let after : List Event := List.replicate 3 .background
  have hone : ∀ e ∈ before ++ after, e ≠ .stop := by simp [before, after]
  refine ⟨record, before, after, _, _, rfl, hone, rfl, rfl, rfl, rfl, ?_⟩
  rintro ⟨kept, rest, hfile, hperm, -, -⟩
  have hkept : kept = [(0, record)] := perm_singleton.1 hperm
  subst hkept
  cases hfile

end RequestLog

end Mmkv
