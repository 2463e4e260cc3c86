import Mmkv.ShardController
import Mathlib.Data.List.Induction
import Mathlib.Data.List.TakeWhile

/-!
# The queue of pending configurations

A join or leave pushes a configuration, and the node's completion commits it.  A
completion that is not for the front of the queue waits in a table; when the front is
committed, a loop commits what waits behind it.

The loop looks at the front before it asks whether there is one, so it fails if the last
configuration has been waiting.  A configuration whose connection is down is dropped.
-/

namespace Mmkv

open List PendingConf

structure PendingState where
  state : ConfState
  nodeId : NodeId
  deriving Repr, DecidableEq

def PendingConf.pendingState (p : PendingConf) : PendingState :=
  ⟨p.state, p.nodeId⟩

abbrev Conn : Type :=
  Nat

/-- `waiting` is `pending_conf_conn_dict_`.  `committed` are the configurations that
`UpdateConfig` has handed on, `sent` the answers to completions. -/
structure ControllerState where
  config : Configuration
  queue : List PendingConf
  waiting : List (PendingState × Conn)
  committed : List PendingConf
  sent : List (Conn × ControllerStatus)
  deriving Repr, DecidableEq

/-- A completion, with the connections that are alive when it arrives. -/
structure Completion where
  state : PendingState
  conn : Conn
  alive : Conn → Bool

namespace ControllerState

variable (s : ControllerState)

def new (config : Configuration) (queue : List PendingConf) : ControllerState :=
  ⟨config, queue, [], [], []⟩

/-- `GetRecentConf`: the front of the queue. -/
def getRecentConf : Configuration :=
  match s.queue with
  | [] => s.config
  | p :: _ => p.conf

def updateConfig (p : PendingConf) : ControllerState :=
  { s with config := p.conf, committed := s.committed ++ [p] }

def send (conn : Conn) (status : ControllerStatus) : ControllerState :=
  { s with sent := s.sent ++ [(conn, status)] }

def findSlot (state : PendingState) : Option Conn :=
  (s.waiting.find? fun entry => decide (entry.1 = state)).map Prod.snd

/-- `InsertKv` leaves an entry that is there. -/
def insertKv (state : PendingState) (conn : Conn) : ControllerState :=
  if (s.findSlot state).isSome then s
  else { s with waiting := s.waiting ++ [(state, conn)] }

def eraseSlot (state : PendingState) : ControllerState :=
  { s with waiting := s.waiting.filter fun entry => decide (entry.1 ≠ state) }

/-- `CheckPendingConfSessionAndResponse`, over what the queue holds. -/
def checkPendingConfSessionAndResponse (alive : Conn → Bool) :
    List PendingConf → ControllerState → Option ControllerState
  | [], _ => none
  | p :: queue, s =>
    match s.findSlot p.pendingState with
    | none => some { s with queue := p :: queue }
    | some conn =>
      if alive conn then
        checkPendingConfSessionAndResponse alive queue
          ((s.send conn .confChange).updateConfig p)
      else
        checkPendingConfSessionAndResponse alive queue (s.eraseSlot p.pendingState)

/-- `ControllorOperationComplete`. -/
def complete (completion : Completion) : Option ControllerState :=
  match s.queue with
  | [] => none
  | p :: queue =>
    if p.pendingState = completion.state then do
      let s := { s.updateConfig p with queue := queue }
      let s ←
        if queue.isEmpty then some s
        else checkPendingConfSessionAndResponse completion.alive queue s
      return s.send completion.conn .confChange
    else some ((s.insertKv completion.state completion.conn).send completion.conn .wait)

def completeAll : List Completion → ControllerState → Option ControllerState
  | [], s => some s
  | completion :: completions, s => do
    let s ← s.complete completion
    completeAll completions s

theorem completeAll_append (pre post : List Completion) (s : ControllerState) :
    completeAll (pre ++ post) s = (completeAll pre s).bind (completeAll post) := by
  induction pre generalizing s with
  | nil => rfl
  | cons completion pre ih =>
    rw [cons_append, completeAll, completeAll]
    cases s.complete completion with
    | none => rfl
    | some s' => exact ih s'

/-! ## The table of waiting connections -/

variable {s} {state : PendingState} {conn : Conn}

theorem findSlot_insertKv_self (h : s.findSlot state = none) :
    (s.insertKv state conn).findSlot state = some conn := by
  have hnone : s.waiting.find? (fun entry => decide (entry.1 = state)) = none :=
    Option.map_eq_none_iff.1 h
  rw [insertKv, h]
  simp [findSlot, find?_append, hnone]

variable {state' : PendingState}

theorem findSlot_insertKv_of_ne (h : state' ≠ state) :
    (s.insertKv state conn).findSlot state' = s.findSlot state' := by
  unfold insertKv
  split
  next => rfl
  next => simp [findSlot, find?_append, Ne.symm h]

theorem findSlot_eraseSlot_of_ne (h : state' ≠ state) :
    (s.eraseSlot state).findSlot state' = s.findSlot state' := by
  rw [findSlot, eraseSlot, find?_filter, findSlot]
  grind

@[simp] theorem insertKv_queue (state : PendingState) (conn : Conn) :
    (s.insertKv state conn).queue = s.queue := by
  unfold insertKv
  split <;> rfl

@[simp] theorem insertKv_committed (state : PendingState) (conn : Conn) :
    (s.insertKv state conn).committed = s.committed := by
  unfold insertKv
  split <;> rfl

@[simp] theorem insertKv_sent (state : PendingState) (conn : Conn) :
    (s.insertKv state conn).sent = s.sent := by
  unfold insertKv
  split <;> rfl

/-! ## The loop -/

/-- Where the loop gets, if `slot` tells the connection that waits for a state. -/
structure Drained (alive : Conn → Bool) (slot : PendingState → Option Conn)
    (queue : List PendingConf) (s s' : ControllerState) : Prop where
  left : s'.queue = queue.dropWhile fun p => (slot p.pendingState).isSome
  committed : s'.committed = s.committed ++
    (queue.takeWhile fun p => (slot p.pendingState).isSome).filter fun p =>
      (slot p.pendingState).any alive
  sent : s'.sent = s.sent ++
    ((queue.takeWhile fun p => (slot p.pendingState).isSome).filter fun p =>
      (slot p.pendingState).any alive).map fun p =>
        ((slot p.pendingState).getD 0, .confChange)
  slots : ∀ state, state ∉ (queue.takeWhile fun p => (slot p.pendingState).isSome).map
    pendingState → s'.findSlot state = s.findSlot state

/-- The loop fails if all have a connection that waits. -/
theorem check_spec (alive : Conn → Bool) {slot : PendingState → Option Conn}
    (queue : List PendingConf) (s : ControllerState)
    (hnodup : (queue.map pendingState).Nodup)
    (hslot : ∀ p ∈ queue, s.findSlot p.pendingState = slot p.pendingState) :
    (∀ p ∈ queue, (slot p.pendingState).isSome) ∧
        checkPendingConfSessionAndResponse alive queue s = none ∨
      (∃ p ∈ queue, slot p.pendingState = none) ∧
        ∃ s', checkPendingConfSessionAndResponse alive queue s = some s' ∧
          Drained alive slot queue s s' := by
  induction queue generalizing s with
  | nil => exact .inl ⟨by simp, rfl⟩
  | cons p queue ih =>
    obtain ⟨hhead, hrest⟩ := nodup_cons.1 hnodup
    have hne : ∀ q ∈ queue, q.pendingState ≠ p.pendingState := by grind
    rw [checkPendingConfSessionAndResponse, hslot p mem_cons_self]
    cases hconn : slot p.pendingState with
    | none =>
      refine .inr ⟨⟨p, mem_cons_self, hconn⟩, _, rfl, ?_⟩
      constructor <;> simp [hconn, findSlot]
    | some conn =>
      have hout : ∀ state, state ∉ ((p :: queue).takeWhile fun p =>
          (slot p.pendingState).isSome).map pendingState →
          state ≠ p.pendingState ∧ state ∉ (queue.takeWhile fun p =>
            (slot p.pendingState).isSome).map pendingState := by
        simp [hconn]
      dsimp only
      cases halive : alive conn with
      | true =>
        refine (ih ((s.send conn .confChange).updateConfig p) hrest
          fun q hq => hslot q (mem_cons_of_mem _ hq)).imp
            (fun h => ⟨by grind, h.2⟩) ?_
        rintro ⟨hsome, s', hcheck, hdrained⟩
        refine ⟨by grind, s', hcheck, ?_⟩
        constructor
        · simpa [hconn] using hdrained.left
        · simpa [hconn, halive, updateConfig, send] using hdrained.committed
        · simpa [hconn, halive, updateConfig, send] using hdrained.sent
        · exact fun state hstate => hdrained.slots state (hout state hstate).2
      | false =>
        refine (ih (s.eraseSlot p.pendingState) hrest fun q hq => ?_).imp
            (fun h => ⟨by grind, h.2⟩) ?_
        · rw [findSlot_eraseSlot_of_ne (hne q hq), hslot q (mem_cons_of_mem _ hq)]
        · rintro ⟨hsome, s', hcheck, hdrained⟩
          refine ⟨by grind, s', hcheck, ?_⟩
          constructor
          · simpa [hconn] using hdrained.left
          · simpa [hconn, halive, eraseSlot] using hdrained.committed
          · simpa [hconn, halive, eraseSlot] using hdrained.sent
          · intro state hstate
            obtain ⟨hne, hstate⟩ := hout state hstate
            rw [hdrained.slots state hstate, findSlot_eraseSlot_of_ne hne]

/-! ## What has arrived -/

/-- The configurations up to the first whose completion is not among `seen`. -/
def front (queue : List PendingConf) (seen : List Completion) : List PendingConf :=
  queue.takeWhile fun p => decide (p.pendingState ∈ seen.map Completion.state)

def slotOf (seen : List Completion) (state : PendingState) : Option Conn :=
  (seen.find? fun completion => decide (completion.state = state)).map Completion.conn

section Arrivals

variable {queue committed : List PendingConf} {seen : List Completion}
  {completion : Completion} {p : PendingConf}

theorem isSome_slotOf (seen : List Completion) (state : PendingState) :
    (slotOf seen state).isSome = decide (state ∈ seen.map Completion.state) := by
  rw [Bool.eq_iff_iff, slotOf, Option.isSome_map, find?_isSome]
  simp

theorem slotOf_of_mem (hnodup : (seen.map Completion.state).Nodup) (hmem : completion ∈ seen) :
    slotOf seen completion.state = some completion.conn := by
  induction seen with
  | nil => cases hmem
  | cons first seen ih =>
    obtain ⟨hfirst, hrest⟩ := nodup_cons.1 hnodup
    rcases mem_cons.1 hmem with rfl | hmem
    · simp [slotOf]
    · have hne : first.state ≠ completion.state := by grind
      have hslot := ih hrest hmem
      simpa [slotOf, hne] using hslot

theorem slotOf_append_of_ne {state : PendingState} (h : completion.state ≠ state) :
    slotOf (seen ++ [completion]) state = slotOf seen state := by
  simp [slotOf, find?_append, h]

theorem slotOf_append_self (h : completion.state ∉ seen.map Completion.state) :
    slotOf (seen ++ [completion]) completion.state = some completion.conn := by
  have hnone : seen.find? (fun c => decide (c.state = completion.state)) = none := by grind
  simp [slotOf, find?_append, hnone]

theorem mem_of_mem_front (h : p ∈ front queue seen) :
    p.pendingState ∈ seen.map Completion.state := by
  have hp := mem_takeWhile_imp h
  simpa using hp

theorem front_append (queue : List PendingConf)
    (h : ∀ p ∈ committed, p.pendingState ∈ seen.map Completion.state) :
    front (committed ++ queue) seen = committed ++ front queue seen := by
  refine takeWhile_append_of_pos fun p hp => ?_
  simpa using h p hp

theorem front_cons_of_mem (h : p.pendingState ∈ seen.map Completion.state) :
    front (p :: queue) seen = p :: front queue seen := by
  rw [front, takeWhile_cons_of_pos (by simpa using h)]
  rfl

theorem front_cons_of_not_mem (h : p.pendingState ∉ seen.map Completion.state) :
    front (p :: queue) seen = [] :=
  takeWhile_cons_of_neg (by simpa using h)

theorem front_append_completion (h : completion.state ∉ queue.map pendingState) :
    front queue (seen ++ [completion]) = front queue seen := by
  induction queue with
  | nil => rfl
  | cons p queue ih =>
    rw [map_cons, mem_cons, not_or] at h
    by_cases hp : p.pendingState ∈ seen.map Completion.state
    · rw [front_cons_of_mem hp, front_cons_of_mem (by grind), ih h.2]
    · rw [front_cons_of_not_mem hp, front_cons_of_not_mem (by grind)]

end Arrivals

/-- The state after some completions: as much as possible has been committed, the others
wait, and who has been committed has been told so. -/
structure Progress (all : List PendingConf) (seen : List Completion) (s : ControllerState) :
    Prop where
  split : s.committed ++ s.queue = all
  committed : s.committed = front all seen
  slots : ∀ p ∈ s.queue, s.findSlot p.pendingState = slotOf seen p.pendingState
  sent : ∀ conn, s.sent.count (conn, .confChange) =
    seen.countP fun c => decide (c.conn = conn) &&
      decide (c.state ∈ s.committed.map pendingState)

theorem progress_new (config : Configuration) (all : List PendingConf) :
    Progress all [] (.new config all) where
  split := rfl
  committed := by
    cases all with
    | nil => rfl
    | cons p all => exact (front_cons_of_not_mem (by simp)).symm
  slots _ _ := rfl
  sent _ := rfl

/-- What a completion needs to be handled well: if it is the last to come, it is for the
last configuration, and the connections whose turn comes with it are alive. -/
structure StepOk (all : List PendingConf) (seen : List Completion) (completion : Completion) :
    Prop where
  last : front all (seen ++ [completion]) = all →
    (all.map pendingState).getLast? = some completion.state
  alive : ∀ c ∈ seen,
    c.state ∈ (front all (seen ++ [completion])).map pendingState →
    c.state ∉ (front all seen).map pendingState → completion.alive c.conn

section Step

variable {all rest : List PendingConf} {seen : List Completion} {completion : Completion}
  {s : ControllerState} {p : PendingConf} {c : Completion}

section

variable (h : Progress all seen s)
include h

theorem Progress.seen_of_committed :
    ∀ p ∈ s.committed, p.pendingState ∈ seen.map Completion.state := by
  rw [h.committed]
  exact fun p hp => mem_of_mem_front hp

theorem Progress.head_not_seen (hqueue : s.queue = p :: rest) :
    p.pendingState ∉ seen.map Completion.state := by
  intro hseen
  have hfront := front_append s.queue h.seen_of_committed
  rw [h.split, ← h.committed, hqueue, front_cons_of_mem hseen] at hfront
  have hlength := congrArg length hfront
  simp at hlength

theorem Progress.ne_head (hqueue : s.queue = p :: rest) (hc : c ∈ seen) :
    c.state ≠ p.pendingState :=
  fun heq => h.head_not_seen hqueue (heq ▸ mem_map_of_mem hc)

theorem Progress.queue_cons (hmem : completion.state ∈ all.map pendingState)
    (hnew : completion.state ∉ seen.map Completion.state) : ∃ p rest, s.queue = p :: rest := by
  refine exists_cons_of_ne_nil fun hqueue => hnew ?_
  obtain ⟨p, hp, heq⟩ := mem_map.1 hmem
  rw [← h.split, hqueue, append_nil] at hp
  rw [← heq]
  exact h.seen_of_committed p hp

theorem Progress.front_next (hqueue : s.queue = p :: rest) : front all (seen ++ [completion]) =
      s.committed ++ front (p :: rest) (seen ++ [completion]) := by
  have hseen := h.seen_of_committed
  have hfront : front (s.committed ++ s.queue) (seen ++ [completion]) = _ :=
    front_append s.queue (by grind)
  rwa [h.split, hqueue] at hfront

theorem Progress.wait (hqueue : s.queue = p :: rest) (hne : p.pendingState ≠ completion.state)
    (hnew : completion.state ∉ seen.map Completion.state) :
    front all (seen ++ [completion]) = front all seen ∧
      ∃ s', s.complete completion = some s' ∧ Progress all (seen ++ [completion]) s' := by
  have hnot : p.pendingState ∉ (seen ++ [completion]).map Completion.state := by
    have hp := h.head_not_seen hqueue
    grind
  have hfront : front all (seen ++ [completion]) = front all seen := by
    rw [h.front_next hqueue, front_cons_of_not_mem hnot, append_nil, h.committed]
  refine ⟨hfront, (s.insertKv completion.state completion.conn).send completion.conn .wait, ?_, ?_⟩
  · rw [complete, hqueue]
    exact if_neg hne
  · constructor
    · simpa [send] using h.split
    · simpa [send, hfront] using h.committed
    · intro q hq
      have hq' : q ∈ s.queue := by simpa [send] using hq
      have hslot : (s.insertKv completion.state completion.conn).findSlot q.pendingState =
          slotOf (seen ++ [completion]) q.pendingState := by
        by_cases heq : q.pendingState = completion.state
        · have hnone : s.findSlot completion.state = none := by
            rw [← heq, h.slots q hq', heq]
            have hsome := isSome_slotOf seen completion.state
            simpa [hnew] using hsome
          rw [heq, findSlot_insertKv_self hnone, slotOf_append_self hnew]
        · rw [findSlot_insertKv_of_ne heq, h.slots q hq', slotOf_append_of_ne (Ne.symm heq)]
      exact hslot
    · intro conn
      have hseen := h.seen_of_committed
      have hcommitted : ∀ q ∈ s.committed, q.pendingState ≠ completion.state := by grind
      have hsent := h.sent conn
      simpa [send, count_append, countP_append, hsent] using fun _ => hcommitted

end

theorem count_slots (hseen : (seen.map Completion.state).Nodup) (conn : Conn)
    (done : List PendingConf) (hdone : (done.map pendingState).Nodup)
    (hmem : ∀ q ∈ done, q.pendingState ∈ seen.map Completion.state) :
    (done.map fun q => ((slotOf seen q.pendingState).getD 0, ControllerStatus.confChange)).count
        (conn, .confChange) =
      seen.countP fun c => decide (c.conn = conn) &&
        decide (c.state ∈ done.map pendingState) := by
  induction done with
  | nil => simp
  | cons q done ih =>
    obtain ⟨hq, hdone⟩ := nodup_cons.1 hdone
    obtain ⟨c, hc, hstate⟩ := mem_map.1 (hmem q mem_cons_self)
    have hrest := ih hdone fun q hq => hmem q (mem_cons_of_mem _ hq)
    have hslot : slotOf seen q.pendingState = some c.conn := by
      rw [← hstate]
      exact slotOf_of_mem hseen hc
    obtain ⟨before, after, rfl⟩ := append_of_mem hc
    have hothers : ∀ d ∈ before ++ after, d.state ≠ q.pendingState := by grind
    have hcount : ∀ l : List Completion, (∀ d ∈ l, d.state ≠ q.pendingState) →
        (l.countP fun d => decide (d.conn = conn) &&
          decide (d.state ∈ (q :: done).map pendingState)) =
        l.countP fun d => decide (d.conn = conn) &&
          decide (d.state ∈ done.map pendingState) := by
      intro l hl
      refine countP_congr fun d hd => ?_
      simp [hl d hd]
    grind

def popped (s : ControllerState) (p : PendingConf) (rest : List PendingConf) : ControllerState :=
  { s.updateConfig p with queue := rest }

theorem takeWhile_slotOf (queue : List PendingConf) :
    (queue.takeWhile fun q => (slotOf seen q.pendingState).isSome) = front queue seen := by
  simp only [front, isSome_slotOf]

theorem dropWhile_slotOf (seen : List Completion) (queue : List PendingConf) :
    front queue seen ++ (queue.dropWhile fun q => (slotOf seen q.pendingState).isSome) =
      queue := by
  rw [← takeWhile_slotOf]
  exact takeWhile_append_dropWhile

theorem Progress.slots_popped (h : Progress all seen s) (hqueue : s.queue = p :: rest) :
    ∀ q ∈ rest, (popped s p rest).findSlot q.pendingState = slotOf seen q.pendingState :=
  fun q hq => h.slots q (by rw [hqueue]; exact mem_cons_of_mem _ hq)

theorem Progress.getLast_of_single (h : Progress all seen s) (hqueue : s.queue = [p]) :
    (all.map pendingState).getLast? = some p.pendingState := by
  rw [← h.split, hqueue]
  simp

variable (hnodup : (all.map pendingState).Nodup) {s' : ControllerState}

include hnodup

theorem Progress.nodup_queue (h : Progress all seen s) (hqueue : s.queue = p :: rest) :
    p.pendingState ∉ rest.map pendingState ∧
      (rest.map pendingState).Nodup := by
  rw [← h.split, hqueue, map_append] at hnodup
  exact nodup_cons.1 (nodup_append.1 hnodup).2.1

section

variable (h : Progress all seen s) (hqueue : s.queue = p :: rest)
  (heq : p.pendingState = completion.state)
include h hqueue heq

theorem Progress.front_of_head :
    front all (seen ++ [completion]) = s.committed ++ p :: front rest seen := by
  have hrest : completion.state ∉ rest.map pendingState :=
    heq ▸ (h.nodup_queue hnodup hqueue).1
  rw [h.front_next hqueue, front_cons_of_mem (by grind), front_append_completion hrest]

theorem Progress.complete_spec :
    (rest ≠ [] ∧ front rest seen = rest) ∧ s.complete completion = none ∨
      (rest = [] ∨ front rest seen ≠ rest) ∧
        ∃ s', s.complete completion = some (s'.send completion.conn .confChange) ∧
          Drained completion.alive (slotOf seen) rest (popped s p rest) s' := by
  rw [complete, hqueue]
  simp only [heq, ↓reduceIte]
  by_cases hempty : rest = []
  · subst hempty
    refine .inr ⟨.inl rfl, popped s p [], rfl, ?_⟩
    constructor <;> simp [popped]
  · have hempty' : rest.isEmpty = false := by simpa using hempty
    simp only [hempty', Bool.false_eq_true, ↓reduceIte]
    change _ ∧ (checkPendingConfSessionAndResponse completion.alive rest (popped s p rest) >>= _)
      = _ ∨ _ ∧ ∃ s', (checkPendingConfSessionAndResponse completion.alive rest
        (popped s p rest) >>= _) = _ ∧ _
    rcases check_spec completion.alive rest (popped s p rest) (h.nodup_queue hnodup hqueue).2
      (h.slots_popped hqueue) with ⟨hall, hcheck⟩ | ⟨⟨q, hq, hnone⟩, s', hcheck, hdrained⟩
    · simp only [isSome_slotOf] at hall
      exact .inl ⟨⟨hempty, takeWhile_eq_self_iff.2 hall⟩, by rw [hcheck]; rfl⟩
    · refine .inr ⟨.inr fun hfront => ?_, s', by rw [hcheck]; rfl, hdrained⟩
      have hsome := isSome_slotOf seen q.pendingState
      rw [hnone, takeWhile_eq_self_iff.1 hfront q hq] at hsome
      cases hsome

theorem Progress.of_drained (hseen : (seen.map Completion.state).Nodup)
    (hdrained : Drained completion.alive (slotOf seen) rest (popped s p rest) s')
    (halive : ∀ q ∈ front rest seen, (slotOf seen q.pendingState).any completion.alive) :
    Progress all (seen ++ [completion]) (s'.send completion.conn .confChange) := by
  have hfilter : ((rest.takeWhile fun q => (slotOf seen q.pendingState).isSome).filter fun q =>
      (slotOf seen q.pendingState).any completion.alive) = front rest seen := by
    rw [takeWhile_slotOf]
    exact filter_eq_self.2 halive
  have hcommitted : s'.committed = s.committed ++ p :: front rest seen := by
    rw [hdrained.committed, hfilter]
    exact append_assoc _ _ _
  constructor
  · change s'.committed ++ s'.queue = all
    rw [hcommitted, hdrained.left, append_assoc, cons_append, dropWhile_slotOf, ← hqueue, h.split]
  · change s'.committed = _
    rw [hcommitted, h.front_of_head hnodup hqueue heq]
  · intro q hq
    have hq' : q ∈ s'.queue := hq
    have hsplit := dropWhile_slotOf seen rest
    rw [← hdrained.left] at hsplit
    have hmem : q ∈ rest := by grind
    obtain ⟨hhead, hrest⟩ := h.nodup_queue hnodup hqueue
    have hnot : q.pendingState ∉ (front rest seen).map pendingState := by grind
    have hne : completion.state ≠ q.pendingState := by grind
    rw [slotOf_append_of_ne hne]
    have hslots := hdrained.slots q.pendingState (by rwa [takeWhile_slotOf])
    exact hslots.trans (h.slots_popped hqueue q hmem)
  · intro conn
    have hsublist : (s.committed ++ front rest seen).Sublist all := by
      rw [← h.split, hqueue]
      exact (List.Sublist.refl _).append ((takeWhile_sublist _).trans (sublist_cons_self _ _))
    have hmem : ∀ q ∈ s.committed ++ front rest seen,
        q.pendingState ∈ seen.map Completion.state := fun q hq =>
      (mem_append.1 hq).elim (h.seen_of_committed q) mem_of_mem_front
    have hdone := hnodup.sublist (hsublist.map pendingState)
    have hold := count_slots hseen conn s.committed
      (hnodup.sublist (((sublist_append_left _ _).trans hsublist).map _))
      h.seen_of_committed
    have htold := count_slots hseen conn _ hdone hmem
    have hothers : (seen.countP fun c => decide (c.conn = conn) &&
        decide (c.state ∈ (s.committed ++ p :: front rest seen).map pendingState)) =
        seen.countP fun c => decide (c.conn = conn) &&
          decide (c.state ∈ (s.committed ++ front rest seen).map pendingState) := by
      refine countP_congr fun c hc => ?_
      simp [h.ne_head hqueue hc]
    have hself : completion.state ∈
        (s.committed ++ p :: front rest seen).map pendingState := by
      grind
    rw [map_append, count_append, hold, ← h.sent conn] at htold
    change (s'.sent ++ [(completion.conn, ControllerStatus.confChange)]).count _ =
      (seen ++ [completion]).countP fun c => decide (c.conn = conn) &&
        decide (c.state ∈ s'.committed.map pendingState)
    rw [hcommitted, hdrained.sent, hfilter, count_append, count_append,
      countP_append, hothers, ← htold, countP_singleton, count_singleton]
    simp only [hself, decide_true, Bool.and_true]
    congr 1
    by_cases hconn : completion.conn = conn <;> simp [hconn]

theorem Progress.newly_iff (hc : c ∈ seen) :
    (c.state ∈ (front all (seen ++ [completion])).map pendingState ∧
        c.state ∉ (front all seen).map pendingState) ↔
      c.state ∈ (front rest seen).map pendingState := by
  have hdisjoint : c.state ∈ (front rest seen).map pendingState →
      c.state ∉ s.committed.map pendingState := by
    intro hrest hcommitted
    rw [← h.split, hqueue, map_append] at hnodup
    obtain ⟨q, hq, hstate⟩ := mem_map.1 hrest
    refine (nodup_append.1 hnodup).2.2 _ hcommitted _ ?_ rfl
    rw [← hstate]
    exact mem_map_of_mem (mem_cons_of_mem _ ((takeWhile_sublist _).subset hq))
  rw [h.front_of_head hnodup hqueue heq, ← h.committed, map_append, map_cons, mem_append, mem_cons]
  constructor
  · rintro ⟨hin | hin | hin, hout⟩
    · exact absurd hin hout
    · exact absurd hin (h.ne_head hqueue hc)
    · exact hin
  · exact fun hin => ⟨.inr (.inr hin), hdisjoint hin⟩

theorem Progress.rest_nil_of_last
    (hlast : (all.map pendingState).getLast? = some completion.state) : rest = [] := by
  by_contra hne
  have hhead := (h.nodup_queue hnodup hqueue).1
  have hrest : rest.map pendingState ≠ [] := by simpa using hne
  have hall : all.map pendingState =
      (s.committed ++ [p]).map pendingState ++
        rest.map pendingState := by
    rw [← h.split, hqueue]
    simp
  grind

end

theorem Progress.step (h : Progress all seen s) (hseen : (seen.map Completion.state).Nodup)
    (hnew : completion.state ∉ seen.map Completion.state)
    (hmem : completion.state ∈ all.map pendingState)
    (hok : StepOk all seen completion) :
    ∃ s', s.complete completion = some s' ∧ Progress all (seen ++ [completion]) s' := by
  obtain ⟨p, rest, hqueue⟩ := h.queue_cons hmem hnew
  by_cases heq : p.pendingState = completion.state
  · rcases h.complete_spec hnodup hqueue heq with
      ⟨⟨hne, hfront⟩, -⟩ | ⟨-, s', hcomplete, hdrained⟩
    · have hall : front all (seen ++ [completion]) = all := by
        rw [h.front_of_head hnodup hqueue heq, hfront, ← hqueue, h.split]
      exact absurd (h.rest_nil_of_last hnodup hqueue heq (hok.last hall)) hne
    · refine ⟨_, hcomplete, h.of_drained hnodup hqueue heq hseen hdrained ?_⟩
      intro q hq
      obtain ⟨c, hc, hstate⟩ := mem_map.1 (mem_of_mem_front hq)
      have hnewly := (h.newly_iff hnodup hqueue heq hc).2 (by
        rw [hstate]
        exact mem_map_of_mem hq)
      rw [← hstate, slotOf_of_mem hseen hc]
      exact hok.alive c hc hnewly.1 hnewly.2
  · exact (h.wait hqueue heq hnew).2

theorem Progress.stepOk (h : Progress all seen s) (hseen : (seen.map Completion.state).Nodup)
    (hnew : completion.state ∉ seen.map Completion.state)
    (hmem : completion.state ∈ all.map pendingState)
    (hcomplete : s.complete completion = some s')
    (hcommitted : s'.committed = front all (seen ++ [completion])) :
    StepOk all seen completion := by
  obtain ⟨p, rest, hqueue⟩ := h.queue_cons hmem hnew
  by_cases heq : p.pendingState = completion.state
  · rcases h.complete_spec hnodup hqueue heq with
      ⟨-, hnone⟩ | ⟨hsome, s1, hcomplete', hdrained⟩
    · cases hnone.symm.trans hcomplete
    rw [hcomplete'] at hcomplete
    cases hcomplete
    constructor
    · intro hall
      rw [h.front_of_head hnodup hqueue heq] at hall
      rcases hsome with rfl | hfront
      · rw [← heq]
        exact h.getLast_of_single hqueue
      · refine absurd ?_ hfront
        rw [← h.split, hqueue] at hall
        exact (cons.inj (append_cancel_left hall)).2
    · intro c hc hin hout
      have hrest := (h.newly_iff hnodup hqueue heq hc).1 ⟨hin, hout⟩
      obtain ⟨q, hq, hstate⟩ := mem_map.1 hrest
      have hfilter : (front rest seen).filter (fun q =>
          (slotOf seen q.pendingState).any completion.alive) = front rest seen := by
        have hdone : s1.committed = front all (seen ++ [completion]) := hcommitted
        rw [hdrained.committed, takeWhile_slotOf, h.front_of_head hnodup hqueue heq] at hdone
        have hdone' : s.committed ++ (p :: _) = s.committed ++ p :: front rest seen :=
          (append_assoc _ _ _).symm.trans hdone
        exact (cons.inj (append_cancel_left hdone')).2
      have halive := filter_eq_self.1 hfilter q hq
      rw [hstate, slotOf_of_mem hseen hc] at halive
      exact halive
  · have hfront := (h.wait hqueue heq hnew).1
    constructor
    · intro hall
      rw [hfront, ← h.committed, ← h.split, hqueue] at hall
      have hlength := congrArg length hall
      simp at hlength
    · grind

end Step

/-! ## All completions -/

def Orderly (all : List PendingConf) (arrivals : List Completion) : Prop :=
  ∀ seen completion later, arrivals = seen ++ completion :: later →
    StepOk all seen completion

/-- Each configuration is committed once, in the order of the queue and as soon as those
before it are; the queue is empty in the end, and each connection has been told of success
as often as it has completed. -/
structure Completes (config : Configuration) (all : List PendingConf)
    (arrivals : List Completion) : Prop where
  asSoonAsPossible : ∀ seen later, arrivals = seen ++ later →
    ∃ s, completeAll seen (.new config all) = some s ∧ s.committed = front all seen ∧
      s.committed ++ s.queue = all
  finished : ∃ s, completeAll arrivals (.new config all) = some s ∧ s.committed = all ∧
    s.queue = [] ∧ ∀ conn, s.sent.count (conn, .confChange) =
      arrivals.countP fun c => decide (c.conn = conn)

section Run

variable {config : Configuration} {all : List PendingConf} {arrivals : List Completion}
  (hperm : (arrivals.map Completion.state).Perm (all.map pendingState))

include hperm

theorem front_arrivals : front all arrivals = all := by
  refine takeWhile_eq_self_iff.2 fun p hp => ?_
  grind

theorem completes_of_progress (h : ∀ seen later, arrivals = seen ++ later →
      ∃ s, completeAll seen (.new config all) = some s ∧ Progress all seen s) :
    Completes config all arrivals where
  asSoonAsPossible := by
    intro seen later harrivals
    obtain ⟨s, hrun, hprogress⟩ := h seen later harrivals
    exact ⟨s, hrun, hprogress.committed, hprogress.split⟩
  finished := by
    obtain ⟨s, hrun, hprogress⟩ := h arrivals [] (append_nil _).symm
    have hcommitted : s.committed = all := hprogress.committed.trans (front_arrivals hperm)
    refine ⟨s, hrun, hcommitted, ?_, ?_⟩
    · have hsplit := hprogress.split
      rw [hcommitted] at hsplit
      exact append_right_eq_self.1 hsplit
    · intro conn
      rw [hprogress.sent conn, hcommitted]
      refine countP_congr fun c hc => ?_
      grind

variable (hnodup : (all.map pendingState).Nodup)

include hnodup

variable {seen later : List Completion} {completion : Completion}

theorem arrival_fresh (harrivals : arrivals = seen ++ completion :: later) :
    (seen.map Completion.state).Nodup ∧
      completion.state ∉ seen.map Completion.state ∧
      completion.state ∈ all.map pendingState := by
  have hstates := hperm.nodup_iff.2 hnodup
  grind

theorem progress_of_steps (hok : ∀ seen completion later s, arrivals = seen ++ completion :: later →
      completeAll seen (.new config all) = some s → Progress all seen s →
        StepOk all seen completion) (seen later : List Completion)
    (harrivals : arrivals = seen ++ later) :
    ∃ s, completeAll seen (.new config all) = some s ∧ Progress all seen s := by
  induction seen using reverseRecOn generalizing later with
  | nil => exact ⟨_, rfl, progress_new config all⟩
  | append_singleton seen completion ih =>
    rw [append_assoc] at harrivals
    have harrivals' : arrivals = seen ++ completion :: later := harrivals
    obtain ⟨s, hrun, hprogress⟩ := ih _ harrivals
    obtain ⟨hseen, hnew, hmem⟩ := arrival_fresh hperm hnodup harrivals'
    obtain ⟨s', hcomplete, hprogress'⟩ := hprogress.step hnodup hseen hnew hmem
      (hok _ _ _ _ harrivals' hrun hprogress)
    refine ⟨s', ?_, hprogress'⟩
    rw [completeAll_append, hrun]
    simp [completeAll, hcomplete]

theorem stepOk_of_completes (h : Completes config all arrivals) {s : ControllerState}
    (harrivals : arrivals = seen ++ completion :: later)
    (hrun : completeAll seen (.new config all) = some s) (hprogress : Progress all seen s) :
    StepOk all seen completion := by
  have hnext : arrivals = (seen ++ [completion]) ++ later := by grind
  obtain ⟨s', hrun', hcommitted, -⟩ := h.asSoonAsPossible _ _ hnext
  have hcomplete : s.complete completion = some s' := by
    rw [completeAll_append, hrun] at hrun'
    simpa [completeAll] using hrun'
  obtain ⟨hseen, hnew, hmem⟩ := arrival_fresh hperm hnodup harrivals
  exact hprogress.stepOk hnodup hseen hnew hmem hcomplete hcommitted

end Run

end ControllerState

open ControllerState

/-- The completions of the pending configurations are handled as they should exactly if
the last to come is that of the last configuration and the connections that wait are alive
when their turn comes. -/
theorem completions_iff (config : Configuration) (all : List PendingConf)
    (arrivals : List Completion) (hnodup : (all.map pendingState).Nodup)
    (hperm : (arrivals.map Completion.state).Perm (all.map pendingState)) :
    ControllerState.Completes config all arrivals ↔ ControllerState.Orderly all arrivals := by
  constructor
  · intro h seen completion later harrivals
    obtain ⟨s, hrun, hprogress⟩ := progress_of_steps hperm hnodup
      (fun _ _ _ _ => stepOk_of_completes hperm hnodup h) seen _ harrivals
    exact stepOk_of_completes hperm hnodup h harrivals hrun hprogress
  · intro h
    exact completes_of_progress hperm
      (progress_of_steps hperm hnodup
        fun seen completion later _ harrivals _ _ => h seen completion later harrivals)

/-- Two configurations whose completions come in order, over connections that are down when
the other one completes. -/
theorem inOrder_completes :
    ControllerState.Completes [] [⟨[], .joinNode, 1⟩, ⟨[], .joinNode, 2⟩]
      [⟨⟨.joinNode, 1⟩, 10, fun _ => false⟩, ⟨⟨.joinNode, 2⟩, 20, fun _ => false⟩] := by
  refine (completions_iff [] [⟨[], .joinNode, 1⟩, ⟨[], .joinNode, 2⟩]
    [⟨⟨.joinNode, 1⟩, 10, fun _ => false⟩, ⟨⟨.joinNode, 2⟩, 20, fun _ => false⟩]
    (by decide) (by decide)).2 ?_
  intro seen completion later harrivals
  rcases seen with _ | ⟨first, _ | ⟨second, seen⟩⟩
  · cases harrivals
    exact ⟨fun h => absurd h (by decide), by simp⟩
  · cases harrivals
    refine ⟨fun _ => rfl, ?_⟩
    intro c hc _ hout
    rw [mem_singleton.1 hc] at hout
    exact absurd hout (by decide)
  · cases seen <;> cases harrivals

/-- The completion of the second configuration comes first: when the first one is
committed, the loop looks at the empty queue.  If a third configuration is there, and the
connection that waits is down, the second is lost. -/
theorem outOfOrder_fails :
    completeAll
        [⟨⟨.joinNode, 2⟩, 20, fun _ => true⟩, ⟨⟨.joinNode, 1⟩, 10, fun _ => true⟩]
        (.new [] [⟨[], .joinNode, 1⟩, ⟨[], .joinNode, 2⟩]) = none ∧
      (completeAll
        [⟨⟨.joinNode, 2⟩, 20, fun _ => true⟩, ⟨⟨.joinNode, 1⟩, 10, fun _ => false⟩]
        (.new [] [⟨[], .joinNode, 1⟩, ⟨[], .joinNode, 2⟩, ⟨[], .joinNode, 3⟩])).map
          (fun s => (s.committed.map nodeId, s.queue.map nodeId)) =
        some ([1], [3]) := by
  decide

end Mmkv
