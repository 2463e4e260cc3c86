import Mmkv.CStrings
import Mmkv.EvenShares
import Mathlib.Data.List.Nodup

/-!
# Joining and leaving a cluster

The controller keeps a configuration: which node owns which shards.  `Join` computes
from the recent one a configuration with the new node, which takes the last shards of
the others down to the even share.  `Leave` computes one without the leaving node.

A configuration is the list of the entries of its map in the order of iteration, so that
what is proved for every list is proved for every order.
-/

namespace Mmkv

open List Nat EvenShares

structure NodeConf where
  port : UInt32
  host : Str
  mmkvdPort : UInt32
  shardIds : List Nat
  deriving Repr, DecidableEq

abbrev NodeId : Type :=
  UInt64

def invalidNodeId : NodeId :=
  0xffffffffffffffff

abbrev Configuration : Type :=
  List (NodeId × NodeConf)

namespace Configuration

variable (conf : Configuration)

def nodeIds : List NodeId :=
  conf.map Prod.fst

def shardIds : List Nat :=
  conf.flatMap fun node => node.2.shardIds

def sizes : List Nat :=
  conf.map fun node => node.2.shardIds.length

def find (id : NodeId) : Option NodeConf :=
  (List.find? (fun node => decide (node.1 = id)) conf).map Prod.snd

/-- `erase`: the nodes other than one. -/
def others (id : NodeId) : Configuration :=
  List.filter (fun other => decide (other.1 ≠ id)) conf

/-- The nodes own disjoint lists of shards that cover all of them. -/
structure Partitions (shardNum : Nat) : Prop where
  nodeIds : conf.nodeIds.Nodup
  shards : conf.shardIds.Perm (List.range shardNum)

end Configuration

open Mmkv.Configuration

structure NodeInfo where
  nodeId : NodeId
  port : UInt32
  host : Str
  shardIds : List Nat
  isPush : Bool
  deriving Repr, DecidableEq

inductive ControllerStatus where
  | ok
  | wait
  | nodeHasAdded
  | nodeFull
  | nodeNonExists
  | confChange
  deriving Repr, DecidableEq

structure ControllerResponse where
  status : ControllerStatus
  nodeId : Option NodeId
  nodeInfos : List NodeInfo
  shardNum : Option Nat
  deriving Repr, DecidableEq

inductive ConfState where
  | joinNode
  | leaveNode
  deriving Repr, DecidableEq

structure PendingConf where
  conf : Configuration
  state : ConfState
  nodeId : NodeId
  deriving Repr, DecidableEq

structure ControllerRequest where
  nodeId : NodeId
  sharderPort : UInt32
  mmkvdPort : UInt32
  deriving Repr, DecidableEq

/-- What a session does with a request: it answers, if it answers, and it may push a
configuration. -/
structure Handling where
  response : Option ControllerResponse
  pending : Option PendingConf
  deriving Repr, DecidableEq

def Handling.reject (status : ControllerStatus) : Handling :=
  ⟨some ⟨status, none, [], none⟩, none⟩

namespace ShardControllerSession

/-! ## Join -/

/-- What the loop of `Join` has changed: the nodes, the infos for the response and the
shards of the new node. -/
structure Collected where
  nodes : Configuration
  infos : List NodeInfo
  shards : List Nat
  deriving Repr, DecidableEq

/-- The loop of `Join`.  There is no result if the assertion on `diff` fails. -/
def collect (atLeast : Nat) : Nat → List Nat → Configuration → Option Collected
  | _, shards, [] => some ⟨[], [], shards⟩
  | more, shards, (id, node) :: nodes =>
    let size := node.shardIds.length
    if size < atLeast then none
    else
      let diff := size - atLeast
      if more > 0 ∧ diff = 0 then do
        let rest ← collect atLeast more shards nodes
        return { rest with nodes := (id, node) :: rest.nodes }
      else
        let diff := if more > 0 then diff - 1 else diff
        let moved := (node.shardIds.drop (size - diff)).reverse
        let node := { node with shardIds := node.shardIds.take (size - diff) }
        do
          let rest ← collect atLeast (more - 1) (shards ++ moved) nodes
          return {
            rest with
            nodes := (id, node) :: rest.nodes
            infos := ⟨id, node.port, node.host, moved, false⟩ :: rest.infos }

def collectShards (shardNum : Nat) (recent : Configuration) : Option Collected :=
  let newNodeNum := recent.length + 1
  if newNodeNum = 1 then some ⟨recent, [], List.range shardNum⟩
  else collect (shardNum / newNodeNum) (shardNum % newNodeNum) [] recent

/-- `Join`, with the address of the peer and the generated id. -/
def join (shardNum : Nat) (recent : Configuration) (host : Str) (generated : NodeId)
    (req : ControllerRequest) : Option Handling :=
  if req.nodeId ≠ invalidNodeId then
    if (recent.find req.nodeId).isSome then some (.reject .nodeHasAdded)
    else some ⟨none, none⟩
  else if recent.length + 1 > shardNum then some (.reject .nodeFull)
  else do
    let collected ← collectShards shardNum recent
    let newNode : NodeConf := ⟨req.sharderPort, host, req.mmkvdPort, collected.shards⟩
    return ⟨some ⟨.ok, some generated, collected.infos, some shardNum⟩,
      some ⟨collected.nodes ++ [(generated, newNode)], .joinNode, generated⟩⟩

/-! ## Leave -/

/-- The loop of `Leave` over the remaining nodes, with the shards that have not been
handed out. -/
def handOut (atLeast : Nat) :
    Nat → List Nat → Configuration → Option (Configuration × List NodeInfo)
  | _, _, [] => some ([], [])
  | more, removed, (id, node) :: nodes =>
    let size := node.shardIds.length
    if ¬ size < atLeast then none
    else
      let diff := atLeast - size
      if more > 0 ∧ diff = 0 then do
        let rest ← handOut atLeast more removed nodes
        return ((id, node) :: rest.1, rest.2)
      else
        let diff := if more > 0 then diff + 1 else diff
        let moved := removed.take diff
        let node := { node with shardIds := node.shardIds ++ moved }
        let info : NodeInfo := ⟨id, node.port, node.host, moved, true⟩
        if (removed.drop diff).isEmpty then some ((id, node) :: nodes, [info])
        else do
          let rest ← handOut atLeast (more - 1) (removed.drop diff) nodes
          return ((id, node) :: rest.1, info :: rest.2)

/-- `Leave`, in a session that has recorded a node id. -/
def leave (sessionNodeId : UInt32) (recent : Configuration) (req : ControllerRequest) :
    Option Handling :=
  if req.nodeId = invalidNodeId then some (.reject .nodeNonExists)
  else
    match recent.find req.nodeId with
    | none => some (.reject .nodeNonExists)
    | some node =>
      if sessionNodeId.toUInt64 ≠ req.nodeId then none
      else do
        let newNodeNum := recent.length - 1
        let (conf, infos) ←
          if newNodeNum > 0 then
            handOut (node.shardIds.length / newNodeNum)
              (node.shardIds.length % newNodeNum) node.shardIds
              (recent.others req.nodeId)
          else some (recent, [])
        return ⟨some ⟨.ok, some req.nodeId, infos, none⟩, some ⟨conf, .leaveNode, req.nodeId⟩⟩

/-! ## What `Join` collects -/

def GivesUp (collected : List Nat) (old new : NodeId × NodeConf) : Prop :=
  new.1 = old.1 ∧ ∃ moved, old.2.shardIds = new.2.shardIds ++ moved ∧ moved ⊆ collected

theorem GivesUp.mono {collected collected' : List Nat} {old new : NodeId × NodeConf}
    (h : GivesUp collected old new) (hsubset : collected ⊆ collected') :
    GivesUp collected' old new := by
  obtain ⟨hid, moved, heq, hmoved⟩ := h
  exact ⟨hid, moved, heq, fun _ hs => hsubset (hmoved hs)⟩

def named (infos : List NodeInfo) : List Nat :=
  infos.flatMap NodeInfo.shardIds

def NamesOwner (nodes : Configuration) (info : NodeInfo) : Prop :=
  ∃ node, (info.nodeId, node) ∈ nodes ∧ info.shardIds ⊆ node.shardIds

structure CollectSpec (atLeast more : Nat) (shards : List Nat) (nodes : Configuration)
    (collected : Collected) : Prop where
  taken : collected.shards = shards ++ named collected.infos
  givesUp : List.Forall₂ (GivesUp (named collected.infos)) nodes collected.nodes
  owners : ∀ info ∈ collected.infos, NamesOwner nodes info
  perm : (collected.nodes.shardIds ++ named collected.infos).Perm nodes.shardIds
  sizes : ∀ size ∈ collected.nodes.sizes, size = atLeast ∨ size = atLeast + 1
  above : above atLeast collected.nodes.sizes =
    min more (above atLeast nodes.sizes)

section Collect

variable {atLeast more : Nat} {shards : List Nat} {id : NodeId} {node : NodeConf}
  {nodes : Configuration} {collected : Collected}

theorem CollectSpec.nil : CollectSpec atLeast more shards [] ⟨[], [], shards⟩ where
  taken := (append_nil _).symm
  givesUp := .nil
  owners := by simp
  perm := by simp [Configuration.shardIds, named]
  sizes := by simp [Configuration.sizes]
  above := by simp [Configuration.sizes, EvenShares.above]

theorem CollectSpec.skip (h : CollectSpec atLeast more shards nodes collected)
    (id : NodeId) (node : NodeConf) (hsize : node.shardIds.length = atLeast) :
    CollectSpec atLeast more shards ((id, node) :: nodes)
      { collected with nodes := (id, node) :: collected.nodes } where
  taken := h.taken
  givesUp := .cons ⟨rfl, [], (append_nil _).symm, by simp⟩ h.givesUp
  owners := by
    intro info hinfo
    obtain ⟨owner, hmem, hsubset⟩ := h.owners info hinfo
    exact ⟨owner, mem_cons_of_mem _ hmem, hsubset⟩
  perm := by
    simp only [Configuration.shardIds, flatMap_cons, append_assoc]
    exact List.Perm.append_left _ h.perm
  sizes := by
    intro size hmem
    rcases mem_cons.1 hmem with rfl | hmem
    · exact .inl hsize
    · exact h.sizes size hmem
  above := by
    have hle : node.shardIds.length ≤ atLeast := le_of_eq hsize
    simp only [Configuration.sizes, map_cons, above_cons_of_le hle]
    exact h.above

theorem CollectSpec.move {keep : Nat} {shards' : List Nat}
    (h : CollectSpec atLeast (more - 1) shards' nodes collected)
    (hshards : shards' = shards ++ (node.shardIds.drop keep).reverse)
    (hkeep : keep ≤ node.shardIds.length)
    (hmore : more = 0 ∧ keep = atLeast ∨ 0 < more ∧ keep = atLeast + 1) :
    CollectSpec atLeast more shards ((id, node) :: nodes)
      { collected with
        nodes := (id, { node with shardIds := node.shardIds.take keep }) :: collected.nodes
        infos := ⟨id, node.port, node.host, (node.shardIds.drop keep).reverse, false⟩ ::
          collected.infos } where
  taken := by
    rw [h.taken, hshards, append_assoc]
    rfl
  givesUp := by
    refine .cons ⟨rfl, node.shardIds.drop keep, (take_append_drop _ _).symm, ?_⟩
      (h.givesUp.imp fun _ _ hgives => hgives.mono fun _ hs => mem_append_right _ hs)
    exact fun _ hs => mem_append_left _ (mem_reverse.2 hs)
  owners := by
    intro info hinfo
    rcases mem_cons.1 hinfo with rfl | hinfo
    · refine ⟨node, mem_cons_self, fun _ hs => ?_⟩
      exact mem_of_mem_drop (mem_reverse.1 hs)
    · obtain ⟨owner, hmem, hsubset⟩ := h.owners info hinfo
      exact ⟨owner, mem_cons_of_mem _ hmem, hsubset⟩
  perm := by
    calc
      node.shardIds.take keep ++ collected.nodes.shardIds ++
          ((node.shardIds.drop keep).reverse ++ named collected.infos)
      _ |>.Perm (node.shardIds.take keep ++ (node.shardIds.drop keep).reverse ++
          (collected.nodes.shardIds ++ named collected.infos)) := by
        rw [append_assoc, append_assoc]
        exact List.Perm.append_left _ (perm_append_comm_assoc _ _ _)
      _ |>.Perm (node.shardIds.take keep ++ node.shardIds.drop keep ++ nodes.shardIds) :=
        ((reverse_perm _).append_left _).append h.perm
      _ = _ := by rw [take_append_drop]; rfl
  sizes := by
    intro size hmem
    rcases mem_cons.1 hmem with rfl | hmem
    · grind
    · exact h.sizes size hmem
  above := by
    have habove := h.above
    simp only [Configuration.sizes, map_cons, length_take_of_le hkeep] at habove ⊢
    rcases hmore with ⟨rfl, rfl⟩ | ⟨hpos, rfl⟩
    · rw [above_cons_of_le (le_refl _), habove]
      simp only [Nat.zero_sub, Nat.zero_min]
    · rw [above_cons_of_lt (lt_succ_self _), above_cons_of_lt hkeep, habove]
      omega

theorem collect_spec (nodes : Configuration) (more : Nat) (shards : List Nat)
    (h : ∀ size ∈ sizes nodes, atLeast ≤ size) :
    ∃ collected, collect atLeast more shards nodes = some collected ∧
      CollectSpec atLeast more shards nodes collected := by
  induction nodes generalizing more shards with
  | nil => exact ⟨_, rfl, .nil⟩
  | cons head nodes ih =>
    obtain ⟨id, node⟩ := head
    have hsize : atLeast ≤ node.shardIds.length := h _ mem_cons_self
    have hrest : ∀ size ∈ sizes nodes, atLeast ≤ size :=
      fun size hmem => h size (mem_cons_of_mem _ hmem)
    rw [collect, if_neg (not_lt.2 hsize)]
    by_cases hskip : more > 0 ∧ node.shardIds.length - atLeast = 0
    · obtain ⟨collected, hcollect, hspec⟩ := ih more shards hrest
      refine ⟨_, ?_, hspec.skip id node (by omega)⟩
      rw [if_pos hskip, hcollect]
      rfl
    · rw [if_neg hskip]
      by_cases hmore : more > 0
      · have hkeep : node.shardIds.length - (node.shardIds.length - atLeast - 1) =
            atLeast + 1 := by omega
        obtain ⟨collected, hcollect, hspec⟩ := ih (more - 1)
          (shards ++ (node.shardIds.drop (atLeast + 1)).reverse) hrest
        refine ⟨_, ?_, hspec.move rfl (by omega) (.inr ⟨hmore, rfl⟩)⟩
        grind
      · have hkeep : node.shardIds.length - (node.shardIds.length - atLeast) = atLeast := by
          omega
        obtain ⟨collected, hcollect, hspec⟩ := ih (more - 1)
          (shards ++ (node.shardIds.drop atLeast).reverse) hrest
        refine ⟨_, ?_, hspec.move rfl (by omega) (.inl ⟨by omega, rfl⟩)⟩
        grind

theorem CollectSpec.even {shardNum : Nat}
    (h : CollectSpec (shardNum / (nodes.length + 1)) (shardNum % (nodes.length + 1)) []
      nodes collected) (heven : EvenShares nodes.sizes) (hsum : nodes.sizes.sum = shardNum) :
    EvenShares (collected.nodes.sizes ++ [collected.shards.length]) := by
  have hlength : nodes.sizes.length = nodes.length := length_map _
  have habove := h.above
  have hremainder := heven.remainder_le_above
  have hkept := sum_of_two_values h.sizes
  have hcount : collected.nodes.sizes.length = nodes.length := by
    rw [Configuration.sizes, length_map]
    exact h.givesUp.length_eq.symm
  have htotal : collected.nodes.sizes.sum + collected.shards.length = shardNum := by
    have hperm := h.perm.length_eq
    rw [length_append, Configuration.shardIds, Configuration.shardIds,
      length_flatMap, length_flatMap] at hperm
    rw [h.taken, nil_append, ← hsum]
    exact hperm
  have hdivision := div_add_mod shardNum (nodes.length + 1)
  refine of_two_values (a := shardNum / (nodes.length + 1)) fun size hmem => ?_
  rcases mem_append.1 hmem with hmem | hmem
  · exact h.sizes size hmem
  · grind

end Collect

theorem sum_sizes {conf : Configuration} {shardNum : Nat} (h : conf.Partitions shardNum) :
    conf.sizes.sum = shardNum := by
  have hlength := h.shards.length_eq
  rw [shardIds, length_flatMap, length_range] at hlength
  exact hlength

def Collected.conf (collected : Collected) (generated : NodeId) (newNode : NodeConf) :
    Configuration :=
  collected.nodes ++ [(generated, newNode)]

theorem nodeIds_of_givesUp {shards : List Nat} {old new : Configuration}
    (h : List.Forall₂ (GivesUp shards) old new) : new.nodeIds = old.nodeIds := by
  induction h with
  | nil => rfl
  | cons hhead _ ih => exact congrArg₂ List.cons hhead.1 ih

section Join

variable {shardNum : Nat} {recent : Configuration} {host : Str} {generated : NodeId}
  {req : ControllerRequest} {collected : Collected}

theorem join_eq (hnew : req.nodeId = invalidNodeId) (hroom : recent.length + 1 ≤ shardNum)
    (hne : recent ≠ [])
    (hcollect : collect (shardNum / (recent.length + 1)) (shardNum % (recent.length + 1)) []
      recent = some collected) :
    join shardNum recent host generated req =
      some ⟨some ⟨.ok, some generated, collected.infos, some shardNum⟩,
        some ⟨collected.conf generated ⟨req.sharderPort, host, req.mmkvdPort,
          collected.shards⟩, .joinNode, generated⟩⟩ := by
  have hlength : recent.length + 1 ≠ 1 := by grind
  rw [join, if_neg (fun h => h hnew), if_neg (by omega)]
  simp only [collectShards, if_neg hlength, hcollect]
  rfl

theorem CollectSpec.partitions {more atLeast : Nat}
    (h : CollectSpec atLeast more [] recent collected) (hpart : recent.Partitions shardNum)
    (hfresh : generated ∉ recent.nodeIds) {newNode : NodeConf}
    (hshards : newNode.shardIds = collected.shards) :
    (collected.conf generated newNode).Partitions shardNum where
  nodeIds := by
    have hids : (collected.conf generated newNode).nodeIds =
        recent.nodeIds ++ [generated] := by
      rw [Collected.conf, nodeIds, map_append]
      exact congrArg (· ++ [generated]) (nodeIds_of_givesUp h.givesUp)
    rw [hids]
    refine nodup_append.2 ⟨hpart.nodeIds, pairwise_singleton _ _, ?_⟩
    grind
  shards := by
    have hall : (collected.conf generated newNode).shardIds =
        collected.nodes.shardIds ++ named collected.infos := by
      rw [Collected.conf, shardIds, flatMap_append, flatMap_cons,
        flatMap_nil, append_nil, hshards, h.taken, nil_append]
      rfl
    rw [hall]
    exact h.perm.trans hpart.shards

end Join

end ShardControllerSession

open ShardControllerSession

open ShardControllerSession in
/-- A node that joins an even partition gets an even share, and the infos of its response
name what it gets under the names of those who had it. -/
theorem join_partitions (shardNum : Nat) (recent : Configuration)
    (hpart : recent.Partitions shardNum) (heven : EvenShares recent.sizes)
    (hroom : recent.length + 1 ≤ shardNum) (host : Str) (generated : NodeId)
    (hfresh : generated ∉ recent.nodeIds) (req : ControllerRequest)
    (hnew : req.nodeId = invalidNodeId) :
    ∃ (infos : List NodeInfo) (nodes : Configuration) (newNode : NodeConf),
      join shardNum recent host generated req =
        some ⟨some ⟨.ok, some generated, infos, some shardNum⟩,
          some ⟨nodes ++ [(generated, newNode)], .joinNode, generated⟩⟩ ∧
      nodes.nodeIds = recent.nodeIds ∧
      Configuration.Partitions (nodes ++ [(generated, newNode)]) shardNum ∧
      EvenShares (sizes (nodes ++ [(generated, newNode)])) ∧
      named infos = newNode.shardIds ∧
      ∀ info ∈ infos, NamesOwner recent info := by
  have hne : recent ≠ [] := by
    rintro rfl
    have hsum := sum_sizes hpart
    change 0 = shardNum at hsum
    omega
  have hsum := sum_sizes hpart
  have hlength : recent.sizes.length = recent.length := length_map _
  have hatLeast : ∀ size ∈ recent.sizes, shardNum / (recent.length + 1) ≤ size := by
    intro size hmem
    have hle := heven.quotient_le hmem
    rwa [hsum, hlength] at hle
  obtain ⟨collected, hcollect, hspec⟩ :=
    collect_spec recent (shardNum % (recent.length + 1)) [] hatLeast
  refine ⟨collected.infos, collected.nodes, _, join_eq hnew hroom hne hcollect,
    nodeIds_of_givesUp hspec.givesUp, hspec.partitions hpart hfresh rfl, ?_, ?_,
    hspec.owners⟩
  · have heven' := hspec.even heven hsum
    rwa [sizes, map_append]
  · exact hspec.taken.symm

/-- A third node joins two. -/
theorem thirdNode_joins :
    ∃ (infos : List NodeInfo) (nodes : Configuration) (newNode : NodeConf),
      join 5 [(1, ⟨0, [], 0, [0, 1, 4]⟩), (2, ⟨0, [], 0, [2, 3]⟩)] [] 3
          ⟨invalidNodeId, 0, 0⟩ =
        some ⟨some ⟨.ok, some 3, infos, some 5⟩, some ⟨nodes ++ [(3, newNode)], .joinNode, 3⟩⟩ ∧
      nodes.nodeIds = [1, 2] ∧
      Configuration.Partitions (nodes ++ [(3, newNode)]) 5 ∧
      EvenShares (sizes (nodes ++ [(3, newNode)])) ∧
      named infos = newNode.shardIds ∧
      ∀ info ∈ infos, ShardControllerSession.NamesOwner
        [(1, ⟨0, [], 0, [0, 1, 4]⟩), (2, ⟨0, [], 0, [2, 3]⟩)] info :=
  join_partitions 5 [(1, ⟨0, [], 0, [0, 1, 4]⟩), (2, ⟨0, [], 0, [2, 3]⟩)]
    ⟨by decide, by decide⟩ (by decide) (by decide) [] 3 (by decide) ⟨invalidNodeId, 0, 0⟩ rfl

/-! ## What `Leave` hands out -/

namespace Configuration

variable {conf : Configuration} {id : NodeId}

theorem others_eq_self (h : id ∉ conf.nodeIds) : conf.others id = conf := by
  refine filter_eq_self.2 fun other hmem => ?_
  have hne : other.1 ≠ id := by
    rintro rfl
    exact h (mem_map_of_mem hmem)
  simpa using hne

theorem perm_others {node : NodeConf} (hnodup : conf.nodeIds.Nodup)
    (hfind : conf.find id = some node) : List.Perm conf ((id, node) :: conf.others id) := by
  induction conf with
  | nil => cases hfind
  | cons head conf ih =>
    obtain ⟨hhead, hrest⟩ := nodup_cons.1 hnodup
    by_cases hid : head.1 = id
    · have hnode : head = (id, node) := by
        rw [find, List.find?_cons_of_pos (by simpa using hid)] at hfind
        exact Prod.ext hid (Option.some.inj hfind)
      subst hnode
      have hothers : others ((id, node) :: conf) id = conf := by
        rw [others, filter_cons_of_neg (by simp)]
        exact others_eq_self hhead
      rw [hothers]
    · have hfind' : find conf id = some node := by
        rwa [find, List.find?_cons_of_neg (by simpa using hid)] at hfind
      have hothers : others (head :: conf) id = head :: others conf id := by
        rw [others, filter_cons_of_pos (by simpa using hid)]
        rfl
      rw [hothers]
      exact ((ih hrest hfind').cons head).trans (List.Perm.swap _ _ _)

theorem find_of_mem (h : id ∈ conf.nodeIds) : ∃ node, conf.find id = some node := by
  obtain ⟨head, hmem, rfl⟩ := mem_map.1 h
  cases hfind : List.find? (fun node => decide (node.1 = head.1)) conf with
  | none => exact absurd (List.find?_eq_none.1 hfind head hmem) (by simp)
  | some node => exact ⟨node.2, by rw [find, hfind]; rfl⟩

end Configuration

namespace ShardControllerSession

/-- What a leave should come to: the other nodes own all shards in even shares, if there
are others, and the infos name for each what it gets. -/
structure Takeover (shardNum : Nat) (recent : Configuration) (leaver : NodeId)
    (conf : Configuration) (infos : List NodeInfo) : Prop where
  nodeIds : conf.nodeIds = (recent.others leaver).nodeIds
  partitions : 1 < recent.length → conf.Partitions shardNum
  even : EvenShares conf.sizes
  infos : ∀ id node node', (id, node) ∈ recent → (id, node') ∈ conf →
    node'.shardIds = node.shardIds ++ named (infos.filter fun info => decide (info.nodeId = id))

def Leaves (shardNum : Nat) (sessionNodeId : UInt32) (recent : Configuration)
    (req : ControllerRequest) : Prop :=
  ∃ (conf : Configuration) (infos : List NodeInfo),
    leave sessionNodeId recent req =
      some ⟨some ⟨.ok, some req.nodeId, infos, none⟩, some ⟨conf, .leaveNode, req.nodeId⟩⟩ ∧
    Takeover shardNum recent req.nodeId conf infos

section Leave

variable {shardNum : Nat} {sessionNodeId : UInt32} {recent : Configuration}
  {req : ControllerRequest} {node : NodeConf}

theorem leave_eq (hvalid : req.nodeId ≠ invalidNodeId)
    (hfind : recent.find req.nodeId = some node) :
    leave sessionNodeId recent req =
      if sessionNodeId.toUInt64 ≠ req.nodeId then none
      else
        (if recent.length - 1 > 0 then
          handOut (node.shardIds.length / (recent.length - 1))
            (node.shardIds.length % (recent.length - 1)) node.shardIds (recent.others req.nodeId)
        else some (recent, [])).map fun r =>
          ⟨some ⟨.ok, some req.nodeId, r.2, none⟩, some ⟨r.1, .leaveNode, req.nodeId⟩⟩ := by
  rw [leave, if_neg hvalid, hfind]
  dsimp only
  split
  · rfl
  · split
    · cases handOut (node.shardIds.length / (recent.length - 1))
        (node.shardIds.length % (recent.length - 1)) node.shardIds
        (recent.others req.nodeId) <;> rfl
    · rfl

variable {id : NodeId} {other : NodeConf} {removed : List Nat}

theorem lt_of_handOut {atLeast more : Nat} {nodes : Configuration}
    {r : Configuration × List NodeInfo}
    (h : handOut atLeast more removed ((id, other) :: nodes) = some r) :
    other.shardIds.length < atLeast := by
  by_contra hge
  rw [handOut, if_pos hge] at h
  cases h

theorem handOut_single (hlength : removed.length = other.shardIds.length + 1) :
    handOut removed.length 0 removed [(id, other)] =
      some ([(id, { other with shardIds := other.shardIds ++ removed.take 1 })],
        [⟨id, other.port, other.host, removed.take 1, true⟩]) := by
  have hdiff : removed.length - other.shardIds.length = 1 := by omega
  rw [handOut, if_neg (by omega)]
  simp only [gt_iff_lt, lt_irrefl, false_and, ↓reduceIte, hdiff]
  split <;> rfl

theorem single_other_of_handOut {size other others : Nat} (heven : size ≤ other + 1)
    (hlow : other < size / (others + 1)) : others = 0 ∧ size = other + 1 := by
  have hle : size / (others + 1) ≤ size := div_le_self _ _
  refine ⟨?_, by omega⟩
  by_contra hothers
  have hhalf : size / (others + 1) ≤ size / 2 := div_le_div_left (by omega) (by decide)
  omega

theorem leave_single (hsession : sessionNodeId.toUInt64 = req.nodeId)
    (hvalid : req.nodeId ≠ invalidNodeId) (hfind : recent.find req.nodeId = some node)
    (hlength : recent.length = 2) (hothers : recent.others req.nodeId = [(id, other)])
    (hsize : node.shardIds.length = other.shardIds.length + 1) :
    leave sessionNodeId recent req =
      some ⟨some ⟨.ok, some req.nodeId,
          [⟨id, other.port, other.host, node.shardIds.take 1, true⟩], none⟩,
        some ⟨[(id, { other with shardIds := other.shardIds ++ node.shardIds.take 1 })],
          .leaveNode, req.nodeId⟩⟩ := by
  rw [leave_eq hvalid hfind, if_neg (fun h => h hsession), hlength, hothers,
    if_pos (by decide), Nat.div_one, Nat.mod_one, handOut_single hsize]
  rfl

theorem takeover_single (hnodup : recent.nodeIds.Nodup)
    (hothers : recent.others req.nodeId = [(id, other)]) (hother : other.shardIds = []) :
    Takeover 1 recent req.nodeId [(id, { other with shardIds := other.shardIds ++ [0] })]
      [⟨id, other.port, other.host, [0], true⟩] where
  nodeIds := by
    rw [hothers]
    rfl
  partitions _ := by
    refine ⟨pairwise_singleton _ _, ?_⟩
    rw [hother]
    exact List.Perm.refl _
  even := by
    intro x hx y hy
    rw [mem_singleton.1 hx, mem_singleton.1 hy]
    omega
  infos := by
    intro id' old new hold hnew
    obtain ⟨rfl, rfl⟩ := Prod.mk.inj (mem_singleton.1 hnew)
    have hmem : (id', other) ∈ recent := by
      have hother : (id', other) ∈ recent.others req.nodeId := by grind
      exact mem_of_mem_filter hother
    have hsame : old = other := congrArg Prod.snd (inj_on_of_nodup_map hnodup hold hmem rfl)
    rw [hsame]
    simp [named]

end Leave

end ShardControllerSession

open ShardControllerSession in
/-- A leave keeps the partition exactly if the node that leaves is one of two, has the
only shard there is, and leaves in a session with its id. -/
theorem leave_iff (shardNum : Nat) (sessionNodeId : UInt32) (recent : Configuration)
    (hpart : recent.Partitions shardNum) (heven : EvenShares recent.sizes)
    (req : ControllerRequest) (hvalid : req.nodeId ≠ invalidNodeId)
    (hmem : req.nodeId ∈ recent.nodeIds) :
    Leaves shardNum sessionNodeId recent req ↔
      sessionNodeId.toUInt64 = req.nodeId ∧ recent.length = 2 ∧ shardNum = 1 ∧
        ∃ node, recent.find req.nodeId = some node ∧ node.shardIds = [0] := by
  obtain ⟨node, hfind⟩ := find_of_mem hmem
  have hperm := perm_others hpart.nodeIds hfind
  have hlength : recent.length = (recent.others req.nodeId).length + 1 := hperm.length_eq
  have hsum : node.shardIds.length + (recent.others req.nodeId).sizes.sum = shardNum := by
    rw [← sum_sizes hpart]
    exact ((hperm.map fun node => node.2.shardIds.length).sum_eq).symm
  constructor
  · rintro ⟨conf, infos, hresult, htakeover⟩
    have hleave := hresult
    rw [leave_eq hvalid hfind] at hleave
    split at hleave
    next => cases hleave
    next hsession =>
      rw [Classical.not_not] at hsession
      cases hothers : recent.others req.nodeId with
      | nil =>
        -- the node is alone, and stays in the configuration
        rw [hothers] at hlength
        rw [hlength] at hleave
        cases hleave
        have hids := htakeover.nodeIds
        rw [hothers] at hids
        rw [hids] at hmem
        cases hmem
      | cons first nodes =>
        obtain ⟨id, other⟩ := first
        rw [hothers] at hlength hsum hleave
        have hothersLength : recent.length - 1 = nodes.length + 1 := by
          rw [hlength]
          rfl
        rw [hothersLength, if_pos (succ_pos _)] at hleave
        obtain ⟨r, hhand, -⟩ := Option.map_eq_some_iff.1 hleave
        have hsizes : node.shardIds.length ≤ other.shardIds.length + 1 := by
          refine heven _ ?_ _ ?_
          · exact mem_map.2 ⟨_, hperm.mem_iff.2 mem_cons_self, rfl⟩
          · refine mem_map.2 ⟨(id, other), hperm.mem_iff.2 ?_, rfl⟩
            rw [hothers]
            simp
        obtain ⟨hnone, hsize⟩ := single_other_of_handOut hsizes (lt_of_handOut hhand)
        obtain rfl := length_eq_zero_iff.1 hnone
        have htwo : recent.length = 2 := hlength
        -- one of the shards is handed out, and it has to be the only one
        have hexact := leave_single hsession hvalid hfind htwo hothers hsize
        rw [hresult] at hexact
        cases hexact
        have hconf := sum_sizes (htakeover.partitions (by omega))
        have htotal : (other.shardIds ++ node.shardIds.take 1).length + 0 = shardNum := hconf
        rw [length_append, length_take] at htotal
        have hrest : node.shardIds.length + (other.shardIds.length + 0) = shardNum := hsum
        have hone : node.shardIds.length = 1 := by omega
        obtain ⟨shard, hshard⟩ := length_eq_one_iff.1 hone
        obtain rfl : shardNum = 1 := by omega
        have hzero : shard ∈ recent.shardIds := by
          refine mem_flatMap.2 ⟨_, hperm.mem_iff.2 mem_cons_self, ?_⟩
          simp [hshard]
        have hbound := mem_range.1 (hpart.shards.mem_iff.1 hzero)
        grind
  · rintro ⟨hsession, htwo, rfl, node', hfind', hnode⟩
    obtain rfl := Option.some.inj (hfind.symm.trans hfind')
    rw [htwo] at hlength
    obtain ⟨⟨id, other⟩, hothers⟩ := length_eq_one_iff.1 (Nat.succ.inj hlength.symm)
    rw [hothers, hnode] at hsum
    have hother : other.shardIds = [] := by
      have hzero : 1 + (other.shardIds.length + 0) = 1 := hsum
      exact length_eq_zero_iff.1 (by omega)
    refine ⟨_, _, leave_single hsession hvalid hfind htwo hothers (by rw [hnode, hother]; rfl), ?_⟩
    rw [hnode]
    exact takeover_single hpart.nodeIds hothers hother


/-- One of two nodes leaves with the only shard. -/
theorem onlyShard_leaves :
    ShardControllerSession.Leaves 1 5 [(5, ⟨0, [], 0, [0]⟩), (7, ⟨0, [], 0, []⟩)] ⟨5, 0, 0⟩ :=
  (leave_iff 1 5 [(5, ⟨0, [], 0, [0]⟩), (7, ⟨0, [], 0, []⟩)] ⟨by decide, by decide⟩ (by decide)
    ⟨5, 0, 0⟩ (by decide) (by decide)).2 ⟨rfl, rfl, rfl, _, rfl, rfl⟩

/-- Two nodes with three shards: the one that leaves with two of them hands out one.  Three
nodes with one shard each: the assertion fails.  A node alone: it stays. -/
theorem leave_loses_shards :
    leave 5 [(5, ⟨0, [], 0, [0, 1]⟩), (7, ⟨0, [], 0, [2]⟩)] ⟨5, 0, 0⟩ =
        some ⟨some ⟨.ok, some 5, [⟨7, 0, [], [0], true⟩], none⟩,
          some ⟨[(7, ⟨0, [], 0, [2, 0]⟩)], .leaveNode, 5⟩⟩ ∧
      leave 5
        [(5, ⟨0, [], 0, [0]⟩), (7, ⟨0, [], 0, [1]⟩), (8, ⟨0, [], 0, [2]⟩)] ⟨5, 0, 0⟩ = none ∧
      leave 5 [(5, ⟨0, [], 0, [0]⟩)] ⟨5, 0, 0⟩ =
        some ⟨some ⟨.ok, some 5, [], none⟩, some ⟨[(5, ⟨0, [], 0, [0]⟩)], .leaveNode, 5⟩⟩ := by
  decide

end Mmkv
