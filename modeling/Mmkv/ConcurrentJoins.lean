import Mmkv.PendingConfigurations

/-!
# Joins that overlap

A join is computed from the front of the queue, the oldest configuration that is not
committed.  With more than one configuration in the queue the front is not the recent
one, and the join forgets the nodes that have been accepted after it.

With at most one configuration in the queue at each join the configurations form a chain,
and its last element accounts for all nodes that have been accepted.
-/

namespace Mmkv

open ShardControllerSession List ControllerState Mmkv.Configuration

/-- A join that has been accepted: the id of the node and the infos of its response. -/
structure Accepted where
  nodeId : NodeId
  infos : List NodeInfo
  deriving Repr, DecidableEq

/-- The shards that a node is told: those of the infos, and all if there is none. -/
def Accepted.told (shardNum : Nat) (accepted : Accepted) : List Nat :=
  if accepted.infos.isEmpty then List.range shardNum else named accepted.infos

/-- Joins and completions in any interleaving, where the completions come in the order in
which the joins have been accepted.  A join finds the entries of the map in any order;
`Allowed` restricts the states in which one arrives. -/
inductive JoinRun (shardNum : Nat) (Allowed : ControllerState → Prop) :
    ControllerState → List Accepted → Prop
  | start : JoinRun shardNum Allowed (.new [] []) []
  | join {s : ControllerState} {accepted : List Accepted} (recent : Configuration)
      (host : Str) (generated : NodeId) (req : ControllerRequest) {infos : List NodeInfo}
      {pending : PendingConf} (hrun : JoinRun shardNum Allowed s accepted)
      (hallowed : Allowed s) (hrecent : List.Perm recent s.getRecentConf)
      (hfresh : generated ∉ s.getRecentConf.nodeIds)
      (hjoin : ShardControllerSession.join shardNum recent host generated req =
        some ⟨some ⟨.ok, some generated, infos, some shardNum⟩, some pending⟩) :
      JoinRun shardNum Allowed { s with queue := s.queue ++ [pending] }
        (accepted ++ [⟨generated, infos⟩])
  | complete {s s' : ControllerState} {accepted : List Accepted} {p : PendingConf}
      {rest : List PendingConf} (conn : Conn) (alive : Conn → Bool)
      (hrun : JoinRun shardNum Allowed s accepted) (hqueue : s.queue = p :: rest)
      (hcomplete : s.complete ⟨p.pendingState, conn, alive⟩ = some s') :
      JoinRun shardNum Allowed s' accepted

def ControllerState.latest (s : ControllerState) : Configuration :=
  (s.queue.getLast?.map PendingConf.conf).getD s.config

/-- A configuration accounts for the nodes that have been accepted: each has the shards
that it was told of without those that later ones were told of, and none has two
owners. -/
structure Accounts (shardNum : Nat) (accepted : List Accepted) (conf : Configuration) :
    Prop where
  nodeIds : conf.nodeIds.Perm (accepted.map Accepted.nodeId)
  nodup : conf.shardIds.Nodup
  shards : ∀ before a after, accepted = before ++ a :: after →
    ∃ node, (a.nodeId, node) ∈ conf ∧ ∀ shard, shard ∈ node.shardIds ↔
      shard ∈ a.told shardNum ∧ ∀ b ∈ after, shard ∉ b.told shardNum

/-! ## One join -/

namespace ShardControllerSession

variable {collected : Collected} {atLeast more : Nat} {shards : List Nat} {nodes : Configuration}

theorem atLeast_le_of_collect (h : collect atLeast more shards nodes = some collected) :
    ∀ size ∈ sizes nodes, atLeast ≤ size := by
  induction nodes generalizing more shards collected with
  | nil => simp [sizes]
  | cons head nodes ih =>
    rw [collect] at h
    split at h
    next => cases h
    next hsize =>
      have hrest : ∀ size ∈ sizes nodes, atLeast ≤ size := by
        dsimp only at h
        split at h
        next =>
          obtain ⟨rest, hrest, -⟩ := Option.bind_eq_some_iff.1 h
          exact ih hrest
        next =>
          obtain ⟨rest, hrest, -⟩ := Option.bind_eq_some_iff.1 h
          exact ih hrest
      intro size hmem
      rcases mem_cons.1 hmem with rfl | hmem
      · exact Nat.le_of_not_lt hsize
      · exact hrest size hmem

theorem spec_of_collect (h : collect atLeast more shards nodes = some collected) :
    CollectSpec atLeast more shards nodes collected := by
  obtain ⟨collected', hcollect, hspec⟩ := collect_spec nodes more shards (atLeast_le_of_collect h)
  grind

variable {shardNum : Nat} {recent : Configuration} {generated : NodeId} {req : ControllerRequest}
  {pending : PendingConf} {infos : List NodeInfo}

theorem collected_of_join {host : Str} (h : join shardNum recent host generated req =
      some ⟨some ⟨.ok, some generated, infos, some shardNum⟩, some pending⟩) :
    recent.length + 1 ≤ shardNum ∧ ∃ collected newNode,
      pending = ⟨collected.conf generated newNode, .joinNode, generated⟩ ∧
      newNode.shardIds = collected.shards ∧ infos = collected.infos ∧
      (recent = [] ∧ collected = ⟨[], [], List.range shardNum⟩ ∨
        recent ≠ [] ∧ CollectSpec (shardNum / (recent.length + 1))
          (shardNum % (recent.length + 1)) [] recent collected) := by
  unfold join at h
  split at h
  next => split at h <;> cases h
  next =>
    split at h
    next => cases h
    next hroom =>
      refine ⟨by omega, ?_⟩
      obtain ⟨collected, hcollect, hresult⟩ := Option.bind_eq_some_iff.1 h
      cases hresult
      refine ⟨collected, _, rfl, rfl, rfl, ?_⟩
      unfold collectShards at hcollect
      dsimp only at hcollect
      split at hcollect
      next hone => grind
      next hone =>
        refine .inr ⟨?_, spec_of_collect hcollect⟩
        rintro rfl
        exact hone rfl

theorem CollectSpec.infos_ne_nil
    (h : CollectSpec (shardNum / (recent.length + 1)) (shardNum % (recent.length + 1)) []
      recent collected) (hcover : recent.shardIds.Perm (List.range shardNum))
    (hroom : recent.length + 1 ≤ shardNum) : collected.infos ≠ [] := by
  intro hnil
  have hperm := (h.perm.trans hcover).length_eq
  rw [hnil, named, flatMap_nil, append_nil, Configuration.shardIds,
    length_flatMap, length_range] at hperm
  have hsum : collected.nodes.sizes.sum = shardNum := hperm
  have hkept := EvenShares.sum_of_two_values h.sizes
  have hcount : collected.nodes.sizes.length = recent.length := by
    rw [Configuration.sizes, length_map]
    exact h.givesUp.length_eq.symm
  have habove := h.above
  have hdivision := Nat.div_add_mod shardNum (recent.length + 1)
  have hzero : shardNum / (recent.length + 1) = 0 := by grind
  have hlt := (Nat.div_eq_zero_iff_lt (Nat.succ_pos _)).1 hzero
  omega

end ShardControllerSession

section Accounts

variable {shardNum : Nat} {accepted : List Accepted} {conf : Configuration}

theorem Accounts.perm {conf' : Configuration} (h : Accounts shardNum accepted conf)
    (hperm : List.Perm conf' conf) : Accounts shardNum accepted conf' where
  nodeIds := (hperm.map Prod.fst).trans h.nodeIds
  nodup := (hperm.flatMap_right _).nodup_iff.2 h.nodup
  shards before a after heq := by
    obtain ⟨node, hnode, hshards⟩ := h.shards before a after heq
    exact ⟨node, hperm.mem_iff.2 hnode, hshards⟩

theorem accounts_nil : Accounts shardNum [] [] where
  nodeIds := List.Perm.refl _
  nodup := nodup_nil
  shards before a after heq := by
    cases before <;> cases heq

variable {newNode : NodeConf}

theorem accounts_first (generated : NodeId) (hshards : newNode.shardIds = List.range shardNum) :
    Accounts shardNum [⟨generated, []⟩] [(generated, newNode)] where
  nodeIds := List.Perm.refl _
  nodup := by
    rw [shardIds, flatMap_singleton, hshards]
    exact nodup_range
  shards before a after heq := by
    rcases before with _ | ⟨first, before⟩
    · cases heq
      exact ⟨newNode, mem_cons_self, by simp [hshards, Accepted.told]⟩
    · cases before <;> cases heq

variable {id : NodeId} {node : NodeConf}

theorem mem_of_givesUp {shards : List Nat} {old new : Configuration}
    (h : List.Forall₂ (GivesUp shards) old new) (hmem : (id, node) ∈ old) :
    ∃ node', (id, node') ∈ new ∧ GivesUp shards (id, node) (id, node') := by
  induction h with
  | nil => cases hmem
  | @cons _ first' _ _ hhead _ ih =>
    rcases mem_cons.1 hmem with rfl | hmem
    · have hfirst : (id, first'.2) = first' := Prod.ext hhead.1.symm rfl
      grind
    · grind

variable {collected : Collected}

theorem mem_shardIds_iff {atLeast more : Nat} {recent : Configuration}
    (h : CollectSpec atLeast more [] recent collected) (hnodup : recent.shardIds.Nodup)
    {node' : NodeConf} (hmem : (id, node') ∈ collected.nodes)
    (hgives : GivesUp (named collected.infos) (id, node) (id, node')) (shard : Nat) :
    shard ∈ node'.shardIds ↔ shard ∈ node.shardIds ∧ shard ∉ named collected.infos := by
  obtain ⟨-, moved, heq, hmoved⟩ := hgives
  have heq' : node.shardIds = node'.shardIds ++ moved := heq
  have hall := h.perm.nodup_iff.2 hnodup
  rw [heq', mem_append]
  constructor
  · intro hshard
    refine ⟨.inl hshard, fun hnamed => ?_⟩
    have hkept : shard ∈ collected.nodes.shardIds := mem_flatMap.2 ⟨_, hmem, hshard⟩
    exact (nodup_append.1 hall).2.2 _ hkept _ hnamed rfl
  · grind

theorem Accounts.join (h : Accounts shardNum accepted conf)
    (hspec : CollectSpec (shardNum / (conf.length + 1)) (shardNum % (conf.length + 1)) []
      conf collected) (hpart : conf.Partitions shardNum) (hroom : conf.length + 1 ≤ shardNum)
    (hfresh : generated ∉ conf.nodeIds) (hshards : newNode.shardIds = collected.shards) :
    Accounts shardNum (accepted ++ [⟨generated, collected.infos⟩])
      (collected.conf generated newNode) where
  nodeIds := by
    rw [Collected.conf, Configuration.nodeIds, map_append, map_append]
    refine List.Perm.append_right _ ?_
    have hids : List.map Prod.fst collected.nodes = conf.nodeIds := nodeIds_of_givesUp hspec.givesUp
    rw [hids]
    exact h.nodeIds
  nodup := (hspec.partitions hpart hfresh hshards).shards.nodup_iff.2 nodup_range
  shards before a after heq := by
    have htold : ∀ shard, shard ∈ Accepted.told shardNum ⟨generated, collected.infos⟩ ↔
        shard ∈ named collected.infos := by
      intro shard
      have hne := hspec.infos_ne_nil hpart.shards hroom
      simp [Accepted.told, hne]
    rcases eq_nil_or_concat after with rfl | ⟨after', last, rfl⟩
    · obtain ⟨-, ha⟩ := append_inj' heq rfl
      cases ha
      refine ⟨newNode, mem_append_right _ mem_cons_self, fun shard => ?_⟩
      rw [htold, hshards, hspec.taken, nil_append]
      simp
    · rw [concat_eq_append, ← cons_append, ← append_assoc] at heq
      obtain ⟨haccepted, hlast⟩ := append_inj' heq rfl
      cases hlast
      obtain ⟨node, hnode, hiff⟩ := h.shards before a after' haccepted
      obtain ⟨node', hnode', hgives⟩ := mem_of_givesUp hspec.givesUp hnode
      refine ⟨node', mem_append_left _ hnode', fun shard => ?_⟩
      rw [mem_shardIds_iff hspec h.nodup hnode' hgives, hiff, concat_eq_append]
      simp only [mem_append, mem_singleton]
      grind

end Accounts

/-! ## Runs -/

def AtMostOnePending (s : ControllerState) : Prop :=
  s.queue.length ≤ 1

/-- The last configuration accounts for all nodes, and nobody waits. -/
structure Chained (shardNum : Nat) (s : ControllerState) (accepted : List Accepted) :
    Prop where
  waiting : s.waiting = []
  accounts : Accounts shardNum accepted s.latest
  nodeIds : s.latest.nodeIds.Nodup
  covers : accepted ≠ [] → s.latest.shardIds.Perm (List.range shardNum)

theorem chained_new (shardNum : Nat) : Chained shardNum (.new [] []) [] where
  waiting := rfl
  accounts := accounts_nil
  nodeIds := nodup_nil
  covers h := absurd rfl h

variable {s : ControllerState}

theorem getRecentConf_eq_latest (h : AtMostOnePending s) : s.getRecentConf = s.latest := by
  unfold getRecentConf latest
  rcases hqueue : s.queue with _ | ⟨p, _ | ⟨q, queue⟩⟩
  · rfl
  · rfl
  · rw [AtMostOnePending, hqueue] at h
    simp at h

theorem latest_push (s : ControllerState) (pending : PendingConf) :
    latest { s with queue := s.queue ++ [pending] } = pending.conf := by
  simp [latest]

variable {shardNum : Nat} {accepted : List Accepted}

theorem Chained.join (h : Chained shardNum s accepted) (hpending : AtMostOnePending s)
    {recent : Configuration} {host : Str}
    (hrecent : List.Perm recent s.getRecentConf)
    (hfresh : generated ∉ s.getRecentConf.nodeIds)
    (hjoin : ShardControllerSession.join shardNum recent host generated req =
      some ⟨some ⟨.ok, some generated, infos, some shardNum⟩, some pending⟩) :
    Chained shardNum { s with queue := s.queue ++ [pending] }
      (accepted ++ [⟨generated, infos⟩]) := by
  rw [getRecentConf_eq_latest hpending] at hrecent hfresh
  have haccounts := h.accounts.perm hrecent
  have hids : recent.nodeIds.Perm s.latest.nodeIds := hrecent.map Prod.fst
  obtain ⟨hroom, collected, newNode, rfl, hshards, rfl, ⟨rfl, rfl⟩ | ⟨hne, hspec⟩⟩ :=
    collected_of_join hjoin
  · -- the first node takes all shards
    obtain rfl : accepted = [] := by
      have hnil := haccounts.nodeIds.symm.eq_nil
      simpa using hnil
    constructor
    · exact h.waiting
    · rw [latest_push]
      exact accounts_first generated hshards
    · rw [latest_push]
      exact pairwise_singleton _ _
    · intro _
      rw [latest_push]
      simp [Collected.conf, shardIds, hshards]
  · have haccepted : accepted ≠ [] := by
      rintro rfl
      have hnil := haccounts.nodeIds.eq_nil
      exact hne (map_eq_nil_iff.1 hnil)
    have hpart : recent.Partitions shardNum :=
      ⟨hids.nodup_iff.2 h.nodeIds, (hrecent.flatMap_right _).trans (h.covers haccepted)⟩
    have hfresh' : generated ∉ recent.nodeIds := fun hmem => hfresh (hids.mem_iff.1 hmem)
    have hpart' := hspec.partitions hpart hfresh' hshards
    constructor
    · exact h.waiting
    · rw [latest_push]
      exact haccounts.join hspec hpart hroom hfresh' hshards
    · rw [latest_push]
      exact hpart'.nodeIds
    · intro _
      rw [latest_push]
      exact hpart'.shards

variable {s' : ControllerState} {p : PendingConf} {rest : List PendingConf} {conn : Conn}
  {alive : Conn → Bool}

theorem complete_of_no_waiting (hwaiting : s.waiting = []) (hqueue : s.queue = p :: rest)
    (hcomplete : s.complete ⟨p.pendingState, conn, alive⟩ = some s') :
    s'.waiting = [] ∧ s'.queue = rest ∧ s'.config = p.conf := by
  rw [complete, hqueue] at hcomplete
  simp only [↓reduceIte] at hcomplete
  cases rest with
  | nil =>
    cases hcomplete
    exact ⟨hwaiting, rfl, rfl⟩
  | cons q rest =>
    simp only [isEmpty_cons, Bool.false_eq_true, ↓reduceIte,
      checkPendingConfSessionAndResponse, findSlot,
      updateConfig, hwaiting, List.find?_nil, Option.map_none] at hcomplete
    cases hcomplete
    exact ⟨rfl, rfl, rfl⟩

theorem Chained.complete (h : Chained shardNum s accepted) (hqueue : s.queue = p :: rest)
    (hcomplete : s.complete ⟨p.pendingState, conn, alive⟩ = some s') :
    Chained shardNum s' accepted := by
  obtain ⟨hwaiting, hrest, hconfig⟩ := complete_of_no_waiting h.waiting hqueue hcomplete
  have hlatest : s'.latest = s.latest := by
    rw [latest, latest, hrest, hqueue, hconfig]
    grind
  constructor
  · exact hwaiting
  · rw [hlatest]
    exact h.accounts
  · rw [hlatest]
    exact h.nodeIds
  · rw [hlatest]
    exact h.covers

theorem JoinRun.chained (h : JoinRun shardNum AtMostOnePending s accepted) :
    Chained shardNum s accepted := by
  induction h with
  | start => exact chained_new shardNum
  | join recent host generated req _ hallowed hrecent hfresh hjoin ih =>
    exact ih.join hallowed hrecent hfresh hjoin
  | complete conn alive _ hqueue hcomplete ih => exact ih.complete hqueue hcomplete

/-- If each join finds at most one configuration pending, the configuration that is
committed in the end accounts for all nodes. -/
theorem joins_account (shardNum : Nat) (s : ControllerState) (accepted : List Accepted)
    (h : JoinRun shardNum AtMostOnePending s accepted) (hdone : s.queue = []) :
    Accounts shardNum accepted s.config := by
  have haccounts := h.chained.accounts
  rw [latest, hdone] at haccounts
  exact haccounts

/-- The second node joins before the first has completed. -/
theorem twoJoins_account :
    Accounts 2 [⟨1, []⟩, ⟨2, [⟨1, 0, [], [1], false⟩]⟩]
      [(1, ⟨0, [], 0, [0]⟩), (2, ⟨0, [], 0, [1]⟩)] := by
  have hfirst : JoinRun 2 AtMostOnePending _ _ :=
    .join [] [] 1 ⟨invalidNodeId, 0, 0⟩ .start (Nat.zero_le 1) (.refl _) (by decide) rfl
  have hsecond : JoinRun 2 AtMostOnePending _ _ :=
    .join [(1, ⟨0, [], 0, [0, 1]⟩)] [] 2 ⟨invalidNodeId, 0, 0⟩ hfirst (Nat.le_refl 1) (.refl _)
      (by decide) rfl
  have hrun : JoinRun 2 AtMostOnePending _ _ :=
    .complete 20 (fun _ => true) (.complete 10 (fun _ => true) hsecond rfl rfl) rfl rfl
  exact joins_account 2 _ _ hrun rfl

/-- Three nodes join before the first has completed: the third join knows nothing of the
second. -/
theorem threeJoins_lose_node :
    ∃ s accepted, JoinRun 4 (fun _ => True) s accepted ∧ s.queue = [] ∧
      accepted.map Accepted.nodeId = [1, 2, 3] ∧ s.config.nodeIds = [1, 3] := by
  have hfirst : JoinRun 4 (fun _ => True) _ _ :=
    .join [] [] 1 ⟨invalidNodeId, 0, 0⟩ .start trivial (.refl _) (by decide) rfl
  have hsecond : JoinRun 4 (fun _ => True) _ _ :=
    .join [(1, ⟨0, [], 0, [0, 1, 2, 3]⟩)] [] 2 ⟨invalidNodeId, 0, 0⟩ hfirst trivial (.refl _)
      (by decide) rfl
  have hthird : JoinRun 4 (fun _ => True) _ _ :=
    .join [(1, ⟨0, [], 0, [0, 1, 2, 3]⟩)] [] 3 ⟨invalidNodeId, 0, 0⟩ hsecond trivial (.refl _)
      (by decide) rfl
  have hrun : JoinRun 4 (fun _ => True) _ _ :=
    .complete 30 (fun _ => true) (.complete 20 (fun _ => true)
      (.complete 10 (fun _ => true) hthird rfl rfl) rfl rfl) rfl rfl
  exact ⟨_, _, hrun, rfl, rfl, rfl⟩

end Mmkv
