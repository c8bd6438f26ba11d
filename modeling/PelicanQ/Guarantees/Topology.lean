import PelicanQ.Daemon.ClusterConfig

/-! # The configured topology is the one the cluster starts with

What the loop over the entries accepts is a grammar: a text with a number, an
at sign, an address, an equals sign and another address, each separator being the
first of its kind.  Texts written that way are read back, whatever blanks and
empty entries stand between them.

Nothing in the grammar keeps two members from having one id.  The address to
listen on is that of the first such member and the membership map keeps the
last, so the two agree with the list exactly when the ids are distinct.
-/

namespace PelicanQ

open Text

/-- `id@raft_addr=client_addr`. -/
def NodeConfig.render (m : NodeConfig) : List Char :=
  Nat.toDigits 10 m.id.toNat ++ '@' :: m.raftAddr.toList ++ '=' :: m.clientAddr.toList

/-- Addresses that keep clear of the separators which come before them in the cutting. -/
structure NodeConfig.Writable (m : NodeConfig) : Prop where
  raftComma : ',' ∉ m.raftAddr.toList
  raftEquals : '=' ∉ m.raftAddr.toList
  clientComma : ',' ∉ m.clientAddr.toList
  clientEnd : ∀ c ∈ m.clientAddr.toList.getLast?, ¬ isWhitespace c

/-- Members written one after the other, with blanks around them and blank entries between. -/
inductive Layout : List NodeConfig → List (List Char) → Prop where
  | nil : Layout [] []
  | blank {members : List NodeConfig} {pieces : List (List Char)} (gap : List Char) :
      (∀ c ∈ gap, isWhitespace c) → Layout members pieces → Layout members (gap :: pieces)
  | member {members : List NodeConfig} {pieces : List (List Char)} (m : NodeConfig)
      (left right : List Char) :
      (∀ c ∈ left, isWhitespace c) → (∀ c ∈ right, isWhitespace c) → Layout members pieces →
        Layout (m :: members) ((left ++ m.render ++ right) :: pieces)

/-- The entries of a text that are not empty when trimmed. -/
def trimmedEntries (pieces : List (List Char)) : List (List Char) :=
  (pieces.map (trim isWhitespace)).filter (!·.isEmpty)

/-- An entry with an equals sign, an at sign before the first one, and a number before the first
    at sign. -/
def NamesNode (entry : List Char) (id : NodeId) : Prop :=
  ∃ idPart raftAddr clientAddr, entry = idPart ++ '@' :: raftAddr ++ '=' :: clientAddr ∧
    '=' ∉ idPart ++ '@' :: raftAddr ∧ '@' ∉ idPart ∧ Numeral idPart id

structure MembersWellFormed (text : String) (selfId : NodeId) : Prop where
  nonempty : trimmedEntries (text.toList.splitOn ',') ≠ []
  named : ∀ entry ∈ trimmedEntries (text.toList.splitOn ','), ∃ id, NamesNode entry id
  selfNamed : ∃ entry ∈ trimmedEntries (text.toList.splitOn ','), NamesNode entry selfId

/-- An entry together with the addresses in it. -/
def Describes (entry : List Char) (m : NodeConfig) : Prop :=
  ∃ idPart, entry = idPart ++ '@' :: m.raftAddr.toList ++ '=' :: m.clientAddr.toList ∧
    '=' ∉ idPart ++ '@' :: m.raftAddr.toList ∧ '@' ∉ idPart ∧ Numeral idPart m.id

theorem namesNode_iff {entry : List Char} {id : NodeId} :
    NamesNode entry id ↔ ∃ m, Describes entry m ∧ m.id = id := by
  constructor
  · rintro ⟨idPart, raftAddr, clientAddr, cut, equals, sign, number⟩
    refine ⟨⟨id, String.ofList raftAddr, String.ofList clientAddr⟩, ⟨idPart, ?_⟩, rfl⟩
    simpa only [String.toList_ofList] using ⟨cut, equals, sign, number⟩
  · rintro ⟨m, ⟨idPart, described⟩, rfl⟩
    exact ⟨idPart, m.raftAddr.toList, m.clientAddr.toList, described⟩

namespace ClusterConfig

theorem parseEntry_eq_ok {entry : List Char} {m : NodeConfig} :
    parseEntry entry = .ok m ↔ Describes entry m := by
  constructor
  · intro parsed
    unfold parseEntry at parsed
    split at parsed
    next => cases parsed
    next idAddrPart clientAddr equals =>
      split at parsed
      next => cases parsed
      next idPart raftAddr sign =>
        split at parsed
        next => cases parsed
        next id number =>
          cases parsed
          obtain ⟨cut, first⟩ := splitOnce_eq_some.mp equals
          obtain ⟨rfl, first'⟩ := splitOnce_eq_some.mp sign
          refine ⟨idPart, ?_, ?_, first', parseU64_eq_ok.mp number⟩
          · simpa only [String.toList_ofList] using cut
          · simpa only [String.toList_ofList] using first
  · rintro ⟨idPart, cut, first, first', number⟩
    have equals := splitOnce_eq_some.mpr ⟨cut, first⟩
    have sign : splitOnce '@' (idPart ++ '@' :: m.raftAddr.toList) = some (idPart, _) :=
      splitOnce_eq_some.mpr ⟨rfl, first'⟩
    simp only [parseEntry, equals, sign, parseU64_eq_ok.mpr number, String.ofList_toList]

/-- The loop reads one member from each entry that is not blank, in order. -/
theorem parseEntries_eq_ok {pieces : List (List Char)} {members out : List NodeConfig} :
    parseEntries pieces members = .ok out ↔
      ∃ added, out = members ++ added ∧ List.Forall₂ Describes (trimmedEntries pieces) added := by
  induction pieces generalizing members with
  | nil =>
      simp [parseEntries, trimmedEntries, eq_comm]
  | cons piece pieces ih =>
      have entries : trimmedEntries (piece :: pieces) =
          if (trim isWhitespace piece).isEmpty then trimmedEntries pieces
          else trim isWhitespace piece :: trimmedEntries pieces := by
        rw [trimmedEntries, List.map_cons, List.filter_cons]
        cases (trim isWhitespace piece).isEmpty <;> rfl
      rw [parseEntries, entries]
      split_ifs with empty
      · exact ih
      · cases parsed : parseEntry (trim isWhitespace piece) with
        | error message =>
            simp only [reduceCtorEq, false_iff, not_exists, not_and]
            intro added _ described
            cases described with
            | cons first _ => rw [parseEntry_eq_ok.mpr first] at parsed; cases parsed
        | ok m =>
            have first := parseEntry_eq_ok.mp parsed
            change parseEntries pieces (members ++ [m]) = .ok out ↔ _
            rw [ih]
            constructor
            · rintro ⟨added, rfl, rest⟩
              exact ⟨m :: added, by rw [List.append_assoc]; rfl, .cons first rest⟩
            · rintro ⟨added, rfl, described⟩
              cases described with
              | cons first' rest =>
                  have same := parsed.symm.trans (parseEntry_eq_ok.mpr first')
                  cases same
                  exact ⟨_, by rw [List.append_assoc]; rfl, rest⟩

/-- What is accepted for a node id and a list of members, and as which configuration. -/
theorem fromEnv_eq_ok {env : Env} {v text : String} {selfId : NodeId} {cfg : ClusterConfig}
    (nodeId : env "PELICANQ_NODE_ID" = some v) (number : Numeral v.toList selfId)
    (members : env "PELICANQ_CLUSTER_MEMBERS" = some text) :
    fromEnv env = .ok (some cfg) ↔
      cfg.selfId = selfId ∧ (∃ m ∈ cfg.members, m.id = selfId) ∧
        List.Forall₂ Describes (trimmedEntries (text.toList.splitOn ',')) cfg.members := by
  have accepted : ∀ {out : List NodeConfig}, parseEntries (text.toList.splitOn ',') [] = .ok out ↔
      List.Forall₂ Describes (trimmedEntries (text.toList.splitOn ',')) out := by
    intro out
    rw [parseEntries_eq_ok]
    simp only [List.nil_append, exists_eq_left']
  simp only [fromEnv, nodeId, parseU64_eq_ok.mpr number, members]
  constructor
  · intro ok
    split at ok
    next => cases ok
    next out parsed =>
      split_ifs at ok with empty absent
      cases ok
      exact ⟨rfl, by simpa using absent, accepted.mp parsed⟩
  · rintro ⟨rfl, ⟨m, member, same⟩, described⟩
    have nonempty : cfg.members.isEmpty = false :=
      List.isEmpty_eq_false_iff.mpr (List.ne_nil_of_mem member)
    have present : cfg.members.any (·.id = cfg.selfId) = true :=
      List.any_eq_true.mpr ⟨m, member, decide_eq_true same⟩
    simp only [accepted.mpr described, nonempty, present, Bool.not_true, Bool.false_eq_true, if_false]

end ClusterConfig

theorem not_isWhitespace_of_isDigit {c : Char} (digit : c.isDigit) : ¬ isWhitespace c := by
  have low : 48 ≤ c.toNat := by
    simp only [Char.isDigit, Bool.and_eq_true, decide_eq_true_eq, UInt32.le_iff_toNat_le] at digit
    exact digit.1
  have high : c.toNat ≤ 57 := by
    simp only [Char.isDigit, Bool.and_eq_true, decide_eq_true_eq, UInt32.le_iff_toNat_le] at digit
    exact digit.2
  simp only [isWhitespace, Bool.or_eq_true, Bool.and_eq_true, decide_eq_true_eq, beq_iff_eq]
  omega

/-- A written member starts with a digit and ends with the client address or an equals sign. -/
theorem NodeConfig.Writable.trim_render {m : NodeConfig} (writable : m.Writable)
    {left right : List Char} (lefts : ∀ c ∈ left, isWhitespace c)
    (rights : ∀ c ∈ right, isWhitespace c) :
    trim isWhitespace (left ++ m.render ++ right) = m.render := by
  obtain ⟨first, rest, digits⟩ := List.exists_cons_of_ne_nil
    (Nat.toDigits_ne_nil (n := m.id.toNat) (b := 10))
  have starts : m.render.head? = some first := by
    rw [NodeConfig.render, digits]
    rfl
  have digit : first.isDigit := Nat.isDigit_of_mem_toDigits (by decide) (by decide)
    (digits ▸ List.mem_cons_self)
  have solid := not_isWhitespace_of_isDigit digit
  cases ends : m.clientAddr.toList.getLast? with
  | none =>
      have equals : m.render.getLast? = some '=' := by
        rw [NodeConfig.render, List.getLast?_eq_none_iff.mp ends]
        exact List.getLast?_concat
      exact trim_padded lefts rights starts solid equals (by decide)
  | some last =>
      have client : m.render.getLast? = some last := by
        rw [NodeConfig.render, List.getLast?_append, List.getLast?_cons, ends]
        rfl
      exact trim_padded lefts rights starts solid client (writable.clientEnd last ends)

theorem NodeConfig.Writable.describes {m : NodeConfig} (writable : m.Writable) :
    Describes m.render m := by
  have digits : ∀ c ∈ Nat.toDigits 10 m.id.toNat, c.isDigit := fun c member =>
    Nat.isDigit_of_mem_toDigits (by decide) (by decide) member
  refine ⟨Nat.toDigits 10 m.id.toNat, rfl, ?_, ?_, numeral_toDigits m.id⟩
  · simp only [List.mem_append, List.mem_cons, not_or]
    exact ⟨fun member => absurd (digits _ member) (by decide), by decide, writable.raftEquals⟩
  · exact fun member => absurd (digits _ member) (by decide)

theorem NodeConfig.Writable.comma_not_mem {m : NodeConfig} (writable : m.Writable) :
    ',' ∉ m.render := by
  have digits : ',' ∉ Nat.toDigits 10 m.id.toNat := fun member =>
    absurd (Nat.isDigit_of_mem_toDigits (by decide) (by decide) member) (by decide)
  simp only [NodeConfig.render, List.mem_append, List.mem_cons, not_or]
  exact ⟨⟨digits, by decide, writable.raftComma⟩, by decide, writable.clientComma⟩

namespace Layout

variable {members : List NodeConfig} {pieces : List (List Char)}

theorem comma_not_mem (laid : Layout members pieces) (writable : ∀ m ∈ members, m.Writable) :
    ∀ piece ∈ pieces, ',' ∉ piece := by
  have blank : ∀ {gap : List Char}, (∀ c ∈ gap, isWhitespace c) → ',' ∉ gap :=
    fun blanks member => absurd (blanks _ member) (by decide)
  induction laid with
  | nil => exact List.forall_mem_nil _
  | blank gap blanks _ ih => exact List.forall_mem_cons.mpr ⟨blank blanks, ih writable⟩
  | member m left right lefts rights _ ih =>
      obtain ⟨first, rest⟩ := List.forall_mem_cons.mp writable
      refine List.forall_mem_cons.mpr ⟨?_, ih rest⟩
      simp only [List.mem_append, not_or]
      exact ⟨⟨blank lefts, first.comma_not_mem⟩, blank rights⟩

/-- The entries left after trimming are the members as they were written. -/
theorem trimmedEntries_eq (laid : Layout members pieces) (writable : ∀ m ∈ members, m.Writable) :
    trimmedEntries pieces = members.map NodeConfig.render := by
  induction laid with
  | nil => rfl
  | blank gap blanks _ ih =>
      rw [← ih writable, trimmedEntries, List.map_cons, trim_blank blanks]
      rfl
  | member m left right lefts rights _ ih =>
      obtain ⟨first, rest⟩ := List.forall_mem_cons.mp writable
      have solid : m.render.isEmpty = false := by simp [NodeConfig.render]
      rw [trimmedEntries, List.map_cons, first.trim_render lefts rights, List.filter_cons_of_pos,
        List.map_cons, ← ih rest]
      · rfl
      · rw [solid]; rfl

theorem ne_nil (laid : Layout members pieces) (some_member : members ≠ []) : pieces ≠ [] := by
  cases laid with
  | nil => exact absurd rfl some_member
  | blank | member => exact List.cons_ne_nil _ _

end Layout

theorem exists_paired {α β : Type} {R : α → β → Prop} {l : List α} {l' : List β}
    (paired : List.Forall₂ R l l') : ∀ b ∈ l', ∃ a ∈ l, R a b := by
  induction paired with
  | nil => exact List.forall_mem_nil _
  | cons related _ ih =>
      refine List.forall_mem_cons.mpr ⟨⟨_, List.mem_cons_self, related⟩, fun b member => ?_⟩
      obtain ⟨a, member, related⟩ := ih b member
      exact ⟨a, List.mem_cons_of_mem _ member, related⟩

theorem membersWellFormed_iff {text : String} {selfId : NodeId} : MembersWellFormed text selfId ↔
    ∃ members : List NodeConfig, (∃ m ∈ members, m.id = selfId) ∧
      List.Forall₂ Describes (trimmedEntries (text.toList.splitOn ',')) members := by
  constructor
  · rintro ⟨-, named, entry, listed, selfNamed⟩
    have described : ∀ entry ∈ trimmedEntries (text.toList.splitOn ','),
        ∃ m, Describes entry m := fun entry listed => by
      obtain ⟨id, named⟩ := named entry listed
      obtain ⟨m, described, -⟩ := namesNode_iff.mp named
      exact ⟨m, described⟩
    have : Nonempty NodeConfig := (described entry listed).nonempty
    choose! member describes using described
    obtain ⟨m, selfDescribed, same⟩ := namesNode_iff.mp selfNamed
    refine ⟨(trimmedEntries (text.toList.splitOn ',')).map member,
      ⟨member entry, List.mem_map_of_mem listed, ?_⟩,
      List.forall₂_map_right_iff.mpr (List.forall₂_same.mpr describes)⟩
    have unique := (ClusterConfig.parseEntry_eq_ok.mpr (describes entry listed)).symm.trans
      (ClusterConfig.parseEntry_eq_ok.mpr selfDescribed)
    rw [Except.ok.inj unique, same]
  · rintro ⟨members, ⟨m, member, rfl⟩, described⟩
    obtain ⟨entry, listed, selfDescribed⟩ := exists_paired described m member
    refine ⟨List.ne_nil_of_mem listed, fun entry listed => ?_,
      entry, listed, namesNode_iff.mpr ⟨m, selfDescribed, rfl⟩⟩
    obtain ⟨m, -, described⟩ := exists_paired described.flip entry listed
    exact ⟨m.id, namesNode_iff.mpr ⟨m, described, rfl⟩⟩

/-- What is written is read back, and what is accepted is what the grammar describes. -/
theorem ClusterConfig.fromEnv_grammar {env : Env} {v : String} {selfId : NodeId}
    (nodeId : env "PELICANQ_NODE_ID" = some v) (number : Numeral v.toList selfId) :
    (∀ (members : List NodeConfig) (pieces : List (List Char)), members ≠ [] →
      (∀ m ∈ members, m.Writable) → Layout members pieces → (∃ m ∈ members, m.id = selfId) →
      env "PELICANQ_CLUSTER_MEMBERS" = some (String.ofList ([','].intercalate pieces)) →
        fromEnv env = .ok (some ⟨selfId, members⟩)) ∧
    (∀ text, env "PELICANQ_CLUSTER_MEMBERS" = some text →
      ((∃ cfg, fromEnv env = .ok (some cfg)) ↔ MembersWellFormed text selfId)) := by
  constructor
  · intro members pieces some_member writable laid selfListed written
    refine (fromEnv_eq_ok nodeId number written).mpr ⟨rfl, selfListed, ?_⟩
    rw [String.toList_ofList, List.splitOn_intercalate ',' (laid.comma_not_mem writable)
      (laid.ne_nil some_member), laid.trimmedEntries_eq writable]
    exact List.forall₂_map_left_iff.mpr
      (List.forall₂_same.mpr fun m member => (writable m member).describes)
  · intro text given
    rw [membersWellFormed_iff]
    constructor
    · rintro ⟨cfg, accepted⟩
      obtain ⟨-, selfListed, described⟩ := (fromEnv_eq_ok nodeId number given).mp accepted
      exact ⟨cfg.members, selfListed, described⟩
    · rintro ⟨members, selfListed, described⟩
      exact ⟨⟨selfId, members⟩,
        (fromEnv_eq_ok nodeId number given).mpr ⟨rfl, selfListed, described⟩⟩

/-- Two nodes with a blank entry between them. -/
def twoNodes : List NodeConfig :=
  [⟨1, "10.0.0.1:7071", "10.0.0.1:7070"⟩, ⟨2, "10.0.0.2:7071", "10.0.0.2:7070"⟩]

def twoNodesEnv : Env
  | "PELICANQ_NODE_ID" => some "2"
  | "PELICANQ_CLUSTER_MEMBERS" =>
      some "1@10.0.0.1:7071=10.0.0.1:7070, , 2@10.0.0.2:7071=10.0.0.2:7070"
  | _ => none

theorem ClusterConfig.twoNodes_read :
    fromEnv twoNodesEnv = .ok (some ⟨2, twoNodes⟩) ∧
      MembersWellFormed "1@10.0.0.1:7071=10.0.0.1:7070, , 2@10.0.0.2:7071=10.0.0.2:7070" 2 := by
  have number : Numeral "2".toList 2 := parseU64_eq_ok.mp (by decide +kernel)
  have grammar := @fromEnv_grammar twoNodesEnv "2" 2 rfl number
  have none : ∀ c ∈ ([] : List Char), isWhitespace c := List.forall_mem_nil _
  have space : ∀ c ∈ [' '], isWhitespace c := by simp [isWhitespace]
  have writable : ∀ m ∈ twoNodes, m.Writable := List.forall_mem_cons.mpr
    ⟨⟨by decide +kernel, by decide +kernel, by decide +kernel, by simp [isWhitespace]⟩,
      List.forall_mem_singleton.mpr
        ⟨by decide +kernel, by decide +kernel, by decide +kernel, by simp [isWhitespace]⟩⟩
  have laid : Layout twoNodes _ :=
    .member _ [] [] none none (.blank [' '] space (.member _ [' '] [] space none .nil))
  have read : fromEnv twoNodesEnv = .ok (some ⟨2, twoNodes⟩) :=
    grammar.1 twoNodes _ (by decide) writable laid
      ⟨_, List.mem_cons_of_mem _ List.mem_cons_self, rfl⟩ (by decide +kernel)
  exact ⟨read, (grammar.2 _ rfl).mp ⟨_, read⟩⟩

/-- The address a node started with this configuration listens on for its peers. -/
def Config.listensOn (cfg : Config) (isFresh : Bool) : Option String :=
  match cfg.start isFresh with
  | some (.flock _ raftAddr _ _) => some raftAddr
  | _ => none

/-- The map a node started with this configuration initializes the cluster with. -/
def Config.initializesWith (cfg : Config) (isFresh : Bool) : Option (OrdMap NodeId Node) :=
  match cfg.start isFresh with
  | some (.flock _ _ _ bootstrap) => bootstrap
  | _ => none

/-- The configuration of another node with the same members. -/
def Config.onNode (cfg : Config) (cluster : ClusterConfig) (id : NodeId) : Config :=
  { cfg with cluster := some { cluster with selfId := id } }

/-- The node with the lowest id starts afresh and initializes the cluster with one entry for
    each member, and this node listens where the entry with its own id says. -/
def BootstrapsTopology (cfg : Config) (cluster : ClusterConfig) (isFresh : Bool) : Prop :=
  ∃ lowestId membership raftAddr,
    cluster.lowestId = some lowestId ∧
    (cfg.onNode cluster lowestId).initializesWith true = some membership ∧
    cfg.listensOn isFresh = some raftAddr ∧
    membership.entries.length = cluster.members.length ∧
    (∀ m ∈ cluster.members, membership.get m.id = some m.node) ∧
    (membership.get cluster.selfId).map Node.raftAddr = some raftAddr

namespace ClusterConfig

theorem self_listed {env : Env} {cluster : ClusterConfig}
    (accepted : fromEnv env = .ok (some cluster)) : ∃ m ∈ cluster.members, m.id = cluster.selfId := by
  unfold fromEnv at accepted
  split at accepted
  next => cases accepted
  next =>
    split at accepted
    next => cases accepted
    next =>
      split at accepted
      next => cases accepted
      next =>
        split at accepted
        next => cases accepted
        next =>
          split_ifs at accepted with empty absent
          cases accepted
          simpa using absent

theorem lowestId_mem {cluster : ClusterConfig} (some_member : cluster.members ≠ []) :
    ∃ lowestId, cluster.lowestId = some lowestId ∧ ∃ m ∈ cluster.members, m.id = lowestId := by
  have some_id : cluster.members.map (·.id) ≠ [] := by simpa using some_member
  obtain ⟨lowestId, lowest⟩ := Option.ne_none_iff_exists'.mp
    (mt List.min?_eq_none_iff.mp some_id)
  exact ⟨lowestId, lowest, List.mem_map.mp (List.min?_mem lowest)⟩

theorem find_self {cluster : ClusterConfig} (listed : ∃ m ∈ cluster.members, m.id = cluster.selfId) :
    ∃ m ∈ cluster.members, m.id = cluster.selfId ∧
      cluster.members.find? (·.id = cluster.selfId) = some m := by
  obtain ⟨m, member, same⟩ := listed
  cases found : cluster.members.find? (·.id = cluster.selfId) with
  | none => exact absurd (decide_eq_true same) (List.find?_eq_none.mp found m member)
  | some first =>
      exact ⟨first, List.mem_of_find?_eq_some found, by simpa using List.find?_some found, rfl⟩

/-- Every accepted configuration starts. -/
theorem start_accepted (cfg : Config) (isFresh : Bool) {cluster : ClusterConfig}
    (flock : cfg.cluster = some cluster) (listed : ∃ m ∈ cluster.members, m.id = cluster.selfId) :
    ∃ m ∈ cluster.members, m.id = cluster.selfId ∧ cfg.listensOn isFresh = some m.raftAddr ∧
      (isFresh = true → cluster.lowestId = some cluster.selfId →
        cfg.initializesWith isFresh = some cluster.membership) := by
  obtain ⟨m, member, same, found⟩ := find_self listed
  obtain ⟨lowestId, lowest, -⟩ := lowestId_mem (List.ne_nil_of_mem member)
  refine ⟨m, member, same, ?_, ?_⟩
  · simp [Config.listensOn, Config.start, flock, found, lowest]
  · rintro rfl first
    simp [Config.initializesWith, Config.start, flock, found, first]

theorem membership_get {cluster : ClusterConfig} (distinct : (cluster.members.map (·.id)).Nodup)
    {m : NodeConfig} (member : m ∈ cluster.members) :
    cluster.membership.get m.id = some m.node := by
  have keys : ((cluster.members.map fun m => (m.id, m.node)).map Prod.fst).Nodup := by
    rwa [List.map_map]
  exact OrdMap.get_foldl_insert keys (List.mem_map_of_mem member)

theorem membership_length {cluster : ClusterConfig} :
    cluster.membership.entries.length = cluster.members.length ↔
      (cluster.members.map (·.id)).Nodup := by
  have count := OrdMap.length_foldl_insert (cluster.members.map fun m => (m.id, m.node))
  rwa [List.length_map, List.map_map] at count

/-- The list, the map and the listening address agree exactly when no two members share an id. -/
theorem bootstraps_topology_iff {env : Env} {cluster : ClusterConfig}
    (accepted : fromEnv env = .ok (some cluster)) {cfg : Config}
    (flock : cfg.cluster = some cluster) (isFresh : Bool) :
    BootstrapsTopology cfg cluster isFresh ↔ (cluster.members.map (·.id)).Nodup := by
  have listed := self_listed accepted
  obtain ⟨self, member, same, listens, -⟩ := start_accepted cfg isFresh flock listed
  obtain ⟨lowestId, lowest, lowestListed⟩ := lowestId_mem (List.ne_nil_of_mem member)
  have onLowest : (cfg.onNode cluster lowestId).cluster = some ⟨lowestId, cluster.members⟩ := rfl
  obtain ⟨-, -, -, -, starts⟩ :=
    start_accepted (cfg.onNode cluster lowestId) true onLowest lowestListed
  have initial : (cfg.onNode cluster lowestId).initializesWith true = some cluster.membership :=
    starts rfl lowest
  constructor
  · rintro ⟨lowestId', membership, -, lowest', initial', -, count, -⟩
    obtain rfl := Option.some.inj (lowest.symm.trans lowest')
    obtain rfl := Option.some.inj (initial.symm.trans initial')
    exact membership_length.mp count
  · intro distinct
    refine ⟨lowestId, cluster.membership, self.raftAddr, lowest, initial, listens,
      membership_length.mpr distinct, fun m => membership_get distinct, ?_⟩
    rw [← same, membership_get distinct member]
    rfl

/-- The daemon's configuration in an environment that sets only the cluster. -/
def onlyCluster (cluster : ClusterConfig) : Config where
  dataDir := "./data"
  listenAddr := "127.0.0.1:7070"
  grpcAddr := "127.0.0.1:7072"
  maxBytes := none
  mqttAddr := some "127.0.0.1:1883"
  cluster := some cluster

theorem twoNodes_bootstrap :
    fromEnv twoNodesEnv = .ok (some ⟨2, twoNodes⟩) ∧
      BootstrapsTopology (onlyCluster ⟨2, twoNodes⟩) ⟨2, twoNodes⟩ true := by
  have accepted : fromEnv twoNodesEnv = .ok (some ⟨2, twoNodes⟩) := by decide +kernel
  exact ⟨accepted, (bootstraps_topology_iff accepted rfl true).mpr (by decide)⟩

/-- Two members share the id 1. -/
def sharedId : List NodeConfig :=
  [⟨1, "10.0.0.1:7071", "10.0.0.1:7070"⟩, ⟨1, "10.0.0.9:7071", "10.0.0.9:7070"⟩]

def sharedIdEnv : Env
  | "PELICANQ_NODE_ID" => some "1"
  | "PELICANQ_CLUSTER_MEMBERS" =>
      some "1@10.0.0.1:7071=10.0.0.1:7070,1@10.0.0.9:7071=10.0.0.9:7070"
  | _ => none

/-- The configuration is accepted, node 1 listens on the first address, and the cluster of one
    entry expects it on the second. -/
theorem sharedId_accepted :
    fromEnv sharedIdEnv = .ok (some ⟨1, sharedId⟩) ∧
      (onlyCluster ⟨1, sharedId⟩).listensOn true = some "10.0.0.1:7071" ∧
      ((onlyCluster ⟨1, sharedId⟩).initializesWith true).map OrdMap.entries =
        some [(1, ⟨"10.0.0.9:7071", "10.0.0.9:7070"⟩)] ∧
      ¬ BootstrapsTopology (onlyCluster ⟨1, sharedId⟩) ⟨1, sharedId⟩ true := by
  refine ⟨by decide +kernel, by decide +kernel, by decide +kernel, ?_⟩
  rintro ⟨lowestId, membership, -, lowest, initial, -, count, -⟩
  have first : (⟨1, sharedId⟩ : ClusterConfig).lowestId = some 1 := by decide +kernel
  obtain rfl := Option.some.inj (first.symm.trans lowest)
  have single : ((((onlyCluster ⟨1, sharedId⟩).onNode ⟨1, sharedId⟩ 1).initializesWith true).map
      fun membership => membership.entries.length) = some 1 := by decide +kernel
  rw [initial, Option.map_some, count] at single
  exact absurd single (by decide)

end ClusterConfig

end PelicanQ
