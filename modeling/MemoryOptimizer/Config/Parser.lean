import Mathlib.Logic.Function.Basic
import MemoryOptimizer.Config.Options

/-!
# Reading the configuration file

`OptionParser::reparse` runs at the start and at every reload, on the same
`Option`. The YAML library is a parameter, and so is the type of its floating
point values: a configuration file is what `YAML::LoadFile` makes of it, none
where that throws. A conversion that throws ends the parse and leaves what was
stored so far.

* `reparse_appends` — a parse, whatever it finds, adds to the policies and to the
  NUMA nodes, and what it adds does not depend on what was there.
* `reparse_eq_fresh_iff` — a reload gives what the last file alone gives if and
  only if there was nothing before it.
-/

namespace MemoryOptimizer

namespace OptionParser

/-! ### The options -/

/-- `MigrateWhat`, with the values of the enumeration. -/
inductive MigrateWhat where
  | none | hot | cold | both
deriving DecidableEq

/-- `(MigrateWhat) m`, for a number below `MIGRATE_END`. -/
def migrateWhatOf : ℕ → MigrateWhat
  | 0 => .none
  | 1 => .hot
  | 2 => .cold
  | _ => .both

inductive Placement where
  | none | dram | pmem
deriving DecidableEq

/-- `(Placement) m`, for a number below `PLACEMENT_END`. -/
def placementOf : ℕ → Placement
  | 0 => .none
  | 1 => .dram
  | _ => .pmem

/-- `struct Policy` and its defaults. -/
structure Policy where
  pid : ℤ := -1
  name : String := ""
  migrateWhat : MigrateWhat := .none
  placement : Placement := .none
  dumpDistribution : Bool := false
deriving DecidableEq

/-- The value of an option. -/
inductive OptionValue (F : Type*) where
  | int (n : ℤ)
  | float (x : F)
  | text (s : String)
  | bool (b : Bool)

/-- `struct Option`: the members that hold one value, by the name of the option
(none for the default), the NUMA nodes and the policies. -/
structure Options (F : Type*) where
  values : String → Option (OptionValue F)
  numaHwConfigV2 : NumaHWConfigV2
  policies : List Policy

/-- A new `OptionParser`. -/
def Options.fresh (F : Type*) : Options F := ⟨fun _ => none, [], []⟩

/-- `bool_name_map`. -/
def boolNameMap : List (String × Bool) :=
  [("true", true), ("yes", true), ("false", false), ("no", false)]

/-- `migrate_name_map`. -/
def migrateNameMap : List (String × MigrateWhat) :=
  [("none", .none), ("hot", .hot), ("cold", .cold), ("both", .both)]

/-- `placement_name_map`. -/
def placementNameMap : List (String × Placement) :=
  [("none", .none), ("dram", .dram), ("pmem", .pmem)]

/-- `parse_name_map`: the value, unchanged after an error, and the result. -/
def parseNameMap {α : Type*} (map : List (String × α)) (ofInt : ℤ → α) (name : String)
    (val : α) (maxVal : ℤ) : α × ℤ :=
  if name.toList.head?.any Char.isDigit then
    if maxVal ≤ atoi name then (val, -1) else (ofInt (atoi name), 0)
  else
    match map.lookup name with
    | some found => (found, 0)
    | none => (val, -2)

/-- `parse_name_map` with `bool_name_map`. -/
def parseBool (name : String) (val : Bool) : Bool :=
  (parseNameMap boolNameMap (fun n => n ≠ 0) name val 2).1

/-- `parse_migrate_name`. -/
def parseMigrateName (name : String) : MigrateWhat :=
  (parseNameMap migrateNameMap (fun n => migrateWhatOf n.toNat) name .none 4).1

/-- `add_policy`: a policy needs a pid or a name. -/
def addPolicy {F : Type*} (opt : Options F) (newPolicy : Policy) : Options F × ℤ :=
  if newPolicy.pid < 0 ∧ newPolicy.name = "" then (opt, -1)
  else ({ opt with policies := opt.policies ++ [newPolicy] }, 0)

/-! ### The parser -/

/-- What the parser uses of the YAML library. A conversion (`as`) and a
subscript are none where they throw. -/
structure Yaml (Node F : Type*) where
  subscript : Node → String → Option Node
  isDefined : Node → Bool
  isMap : Node → Bool
  isSequence : Node → Bool
  /-- The keys and the values from `begin` to `end`. -/
  items : Node → List (Node × Node)
  /-- `node[i]` for `i` below `size`. -/
  elements : Node → List Node
  asString : Node → Option String
  asInt : Node → Option ℤ
  asFloat : Node → Option F

/-- How an option is converted. -/
inductive OptionKind where
  | int | float | text | bool

/-- The options that hold one value, in the order of `parse_option`. -/
def optionKinds : List (String × OptionKind) :=
  [("nr_scans", .int), ("nr_scan_rounds", .int), ("scan_period", .int), ("interval", .float),
    ("initial_interval", .float), ("sleep", .float), ("loop", .int), ("max_threads", .int),
    ("split_rss_size", .text), ("bandwidth_mbps", .float), ("dram_percent", .int),
    ("output", .text), ("hugetlb", .int), ("thp", .int), ("exit_on_stabilized", .int),
    ("numa_dram_nodes", .text), ("numa_pmem_nodes", .text), ("numa_peer_nodes", .text),
    ("debug_move_pages", .int), ("anti_thrash_threshold", .int),
    ("one_period_migration_size", .int), ("interval_scale", .int),
    ("progressive_profile", .text), ("max_stable_page_sleep", .int),
    ("dump_options", .bool), ("dump_processes", .bool), ("exit_on_exceeded", .bool),
    ("show_numa_stats", .bool), ("exit_on_converged", .bool), ("use_free_dram_first", .bool)]

/-- The result of a part of the parser that returns, or throws. -/
inductive Outcome where
  | returned (ret : ℤ)
  | thrown
deriving DecidableEq

section Parser

variable {Node F : Type*} (yaml : Yaml Node F)

/-- The value of an option that holds one. A boolean keeps its old value, at
first the default `false`, when its text is not understood. -/
def optionValue (old : Option (OptionValue F)) (kind : OptionKind) (value : Node) :
    Option (OptionValue F) :=
  match kind with
  | .int => (yaml.asInt value).map .int
  | .float => (yaml.asFloat value).map .float
  | .text => (yaml.asString value).map .text
  | .bool => (yaml.asString value).map fun name =>
      .bool (parseBool name (match old with | some (.bool b) => b | _ => false))

/-- `parse_one_numa_node`, into an empty entry. -/
def parseOneNumaNode (node : Node) : Option NumaHWConfigEntry :=
  (yaml.items node).foldlM (fun entry item => do
    let value ← yaml.asString item.2
    let key ← yaml.asString item.1
    some (NumaHWConfigEntry.set entry key value)) []

/-- `parse_numa_nodes`. -/
def parseNumaNodes (opt : Options F) : List (Node × Node) → Options F × Outcome
  | [] => (opt, .returned 0)
  | (key, node) :: items =>
      match yaml.asString key, parseOneNumaNode yaml node with
      | some id, some entry =>
          parseNumaNodes
            { opt with numaHwConfigV2 := opt.numaHwConfigV2 ++ [entry.set "id" id] } items
      | _, _ => (opt, .thrown)

/-- One turn of the loop of `parse_option`. -/
def parseOptionItem (opt : Options F) (item : Node × Node) : Options F × Outcome :=
  match yaml.asString item.1 with
  | none => (opt, .thrown)
  | some key =>
      match optionKinds.lookup key with
      | some kind =>
          match optionValue yaml (opt.values key) kind item.2 with
          | some value => ({ opt with values := Function.update opt.values key value }, .returned 0)
          | none => (opt, .thrown)
      | none =>
          if key = "numa_nodes" then parseNumaNodes yaml opt (yaml.items item.2)
          else (opt, .returned 0)

/-- The loop of `parse_option`. -/
def parseOptionItems (opt : Options F) : List (Node × Node) → Options F × Outcome
  | [] => (opt, .returned 0)
  | item :: items =>
      let r := parseOptionItem yaml opt item
      match r.2 with
      | .thrown => (r.1, .thrown)
      | .returned _ => parseOptionItems r.1 items

/-- `parse_option`. -/
def parseOption (opt : Options F) (optionNode : Node) : Options F × Outcome :=
  if ¬yaml.isDefined optionNode then (opt, .returned (-1))
  else if ¬yaml.isMap optionNode then (opt, .returned (-1))
  else parseOptionItems yaml opt (yaml.items optionNode)

/-- One turn of the loop of `parse_one_policy`, with `parse_common_policy`. -/
def parsePolicyItem (policy : Policy) (item : Node × Node) : Option Policy := do
  let key ← yaml.asString item.1
  if key = "pid" then
    let pid ← yaml.asInt item.2
    some { policy with pid := pid }
  else if key = "name" then
    let name ← yaml.asString item.2
    some { policy with name := name }
  else if key = "migration" then
    let name ← yaml.asString item.2
    some { policy with migrateWhat := parseMigrateName name }
  else if key = "placement" then
    let name ← yaml.asString item.2
    some { policy with
      placement :=
        (parseNameMap placementNameMap (fun n => placementOf n.toNat) name policy.placement 3).1 }
  else if key = "dump_distribution" then
    let name ← yaml.asString item.2
    some { policy with dumpDistribution := parseBool name policy.dumpDistribution }
  else some policy

/-- `parse_one_policy`. -/
def parseOnePolicy (opt : Options F) (policyNode : Node) : Options F × Outcome :=
  match (yaml.items policyNode).foldlM (parsePolicyItem yaml) {} with
  | none => (opt, .thrown)
  | some newPolicy => ((addPolicy opt newPolicy).1, .returned 0)

/-- The loop of `parse_policies`. -/
def parsePolicyNodes (opt : Options F) : List Node → Options F × Outcome
  | [] => (opt, .returned 0)
  | node :: nodes =>
      if ¬yaml.isMap node then parsePolicyNodes opt nodes
      else
        let r := parseOnePolicy yaml opt node
        match r.2 with
        | .thrown => (r.1, .thrown)
        | .returned _ => parsePolicyNodes r.1 nodes

/-- `parse_policies`. -/
def parsePolicies (opt : Options F) (policiesNode : Node) : Options F × Outcome :=
  if ¬yaml.isDefined policiesNode then (opt, .returned (-1))
  else if ¬yaml.isSequence policiesNode then (opt, .returned (-1))
  else parsePolicyNodes yaml opt (yaml.elements policiesNode)

/-- The second `try` of `reparse`. -/
def parseConfig (opt : Options F) (config : Node) : Options F × Outcome :=
  match yaml.subscript config "options" with
  | none => (opt, .thrown)
  | some optionNode =>
      let r := parseOption yaml opt optionNode
      match r.2 with
      | .thrown => (r.1, .thrown)
      | .returned ret =>
          if ret < 0 then (r.1, .returned ret)
          else
            match yaml.subscript config "policies" with
            | none => (r.1, .thrown)
            | some policiesNode => parsePolicies yaml r.1 policiesNode

/-- `reparse` of a file, and its result. -/
def reparse (opt : Options F) (file : Option Node) : Options F × ℤ :=
  match file with
  | none => (opt, -1)
  | some config =>
      let r := parseConfig yaml opt config
      match r.2 with
      | .thrown => (r.1, -1)
      | .returned ret => (r.1, ret)

/-- One `reparse` after the other; `reload_conf` ignores the results. -/
def reparseAll (opt : Options F) (files : List (Option Node)) : Options F :=
  files.foldl (fun opt file => (reparse yaml opt file).1) opt

end Parser

/-! ### Matching -/

/-- The part of a `Process` that policies look at. -/
structure Process where
  pid : ℤ
  name : String

/-- `match_policy`. -/
def matchPolicy (process : Process) (policy : Policy) : Bool :=
  (0 ≤ policy.pid && policy.pid = process.pid) ||
    (policy.name ≠ "" && policy.name = process.name)

/-- `match_policies`: the first that matches. -/
def matchPolicies (process : Process) (policies : List Policy) : Option Policy :=
  policies.find? (matchPolicy process)

/-! ### A parse only adds -/

section Appends

variable {Node F : Type*} {β γ : Type*}

/-- `f` adds policies and NUMA nodes, and with what result, whatever was there. -/
def Appends (f : Options F → Options F × β) : Prop :=
  ∃ nodes policies b, ∀ opt, (f opt).2 = b ∧
    (f opt).1.numaHwConfigV2 = opt.numaHwConfigV2 ++ nodes ∧
    (f opt).1.policies = opt.policies ++ policies

theorem Appends.of_same {f : Options F → Options F × β} (b : β)
    (h : ∀ opt, (f opt).2 = b ∧ (f opt).1.numaHwConfigV2 = opt.numaHwConfigV2 ∧
      (f opt).1.policies = opt.policies) : Appends f := by
  refine ⟨[], [], b, fun opt => ?_⟩
  rw [List.append_nil, List.append_nil]
  exact h opt

/-- One part after the other, the second chosen by the result of the first. -/
theorem Appends.bind {f : Options F → Options F × β} {g : β → Options F → Options F × γ}
    (hf : Appends f) (hg : ∀ b, Appends (g b)) : Appends fun opt => g (f opt).2 (f opt).1 := by
  obtain ⟨nodes, policies, b, hf⟩ := hf
  obtain ⟨nodes', policies', b', hg⟩ := hg b
  refine ⟨nodes ++ nodes', policies ++ policies', b', fun opt => ?_⟩
  obtain ⟨hresult, hnodes, hpolicies⟩ := hf opt
  obtain ⟨hresult', hnodes', hpolicies'⟩ := hg (f opt).1
  dsimp only
  rw [hresult]
  exact ⟨hresult', by rw [hnodes', hnodes, List.append_assoc],
    by rw [hpolicies', hpolicies, List.append_assoc]⟩

variable (yaml : Yaml Node F)

theorem parseNumaNodes_appends (items : List (Node × Node)) :
    Appends fun opt => parseNumaNodes yaml opt items := by
  induction items with
  | nil => exact .of_same _ fun opt => ⟨rfl, rfl, rfl⟩
  | cons item items ih =>
      cases hid : yaml.asString item.1 with
      | none =>
          refine .of_same .thrown fun opt => ?_
          simp [parseNumaNodes, hid]
      | some id =>
          cases hentry : parseOneNumaNode yaml item.2 with
          | none =>
              refine .of_same .thrown fun opt => ?_
              simp [parseNumaNodes, hentry]
          | some entry =>
              have hpush : Appends fun opt : Options F =>
                  ({ opt with numaHwConfigV2 := opt.numaHwConfigV2 ++ [entry.set "id" id] }, ()) :=
                ⟨[entry.set "id" id], [], (), fun opt => ⟨rfl, rfl, (List.append_nil _).symm⟩⟩
              have hrest := hpush.bind (g := fun _ opt => parseNumaNodes yaml opt items) fun _ => ih
              simpa only [parseNumaNodes, hid, hentry] using hrest

/-- Whether a conversion throws does not depend on the old value. -/
theorem optionValue_eq_none_iff (old old' : Option (OptionValue F)) (kind : OptionKind)
    (value : Node) :
    optionValue yaml old kind value = none ↔ optionValue yaml old' kind value = none := by
  cases kind with
  | bool => exact Option.map_eq_none_iff.trans Option.map_eq_none_iff.symm
  | int => exact Iff.rfl
  | float => exact Iff.rfl
  | text => exact Iff.rfl

theorem parseOptionItem_appends (item : Node × Node) :
    Appends fun opt => parseOptionItem yaml opt item := by
  cases hkey : yaml.asString item.1 with
  | none => exact .of_same .thrown fun opt => by simp [parseOptionItem, hkey]
  | some key =>
      cases hkind : optionKinds.lookup key with
      | some kind =>
          cases hvalue : optionValue yaml none kind item.2 with
          | none =>
              refine .of_same .thrown fun opt => ?_
              have h := (optionValue_eq_none_iff yaml _ (opt.values key) kind item.2).mp hvalue
              simp [parseOptionItem, hkey, hkind, h]
          | some value =>
              refine .of_same (.returned 0) fun opt => ?_
              cases h : optionValue yaml (opt.values key) kind item.2 with
              | none =>
                  rw [optionValue_eq_none_iff yaml _ none, hvalue] at h
                  cases h
              | some value' => simp [parseOptionItem, hkey, hkind, h]
      | none =>
          by_cases hnodes : key = "numa_nodes"
          · have h := parseNumaNodes_appends yaml (yaml.items item.2)
            simpa only [parseOptionItem, hkey, hkind, if_pos hnodes] using h
          · refine .of_same (.returned 0) fun opt => ?_
            simp [parseOptionItem, hkey, hkind, hnodes]

/-- A part that goes on after a return and ends after a throw. -/
theorem Appends.andThen {f g : Options F → Options F × Outcome} (hf : Appends f)
    (hg : Appends g) : Appends fun opt =>
      match (f opt).2 with
      | .thrown => ((f opt).1, .thrown)
      | .returned _ => g (f opt).1 := by
  refine hf.bind (g := fun b opt => match b with
    | .thrown => (opt, .thrown)
    | .returned _ => g opt) fun b => ?_
  cases b with
  | thrown => exact .of_same .thrown fun opt => ⟨rfl, rfl, rfl⟩
  | returned ret => exact hg

theorem parseOptionItems_appends (items : List (Node × Node)) :
    Appends fun opt => parseOptionItems yaml opt items := by
  induction items with
  | nil => exact .of_same _ fun opt => ⟨rfl, rfl, rfl⟩
  | cons item items ih => exact (parseOptionItem_appends yaml item).andThen ih

theorem parseOption_appends (optionNode : Node) :
    Appends fun opt => parseOption yaml opt optionNode := by
  unfold parseOption
  split
  · exact .of_same _ fun opt => ⟨rfl, rfl, rfl⟩
  · split
    · exact .of_same _ fun opt => ⟨rfl, rfl, rfl⟩
    · exact parseOptionItems_appends yaml _

theorem addPolicy_appends (newPolicy : Policy) :
    Appends fun opt : Options F => addPolicy opt newPolicy := by
  unfold addPolicy
  split
  · exact .of_same _ fun opt => ⟨rfl, rfl, rfl⟩
  · exact ⟨[], [newPolicy], 0, fun opt => ⟨rfl, (List.append_nil _).symm, rfl⟩⟩

theorem parseOnePolicy_appends (policyNode : Node) :
    Appends fun opt => parseOnePolicy yaml opt policyNode := by
  unfold parseOnePolicy
  split
  · exact .of_same _ fun opt => ⟨rfl, rfl, rfl⟩
  · next newPolicy _ =>
    exact (addPolicy_appends newPolicy).bind (g := fun _ opt => (opt, Outcome.returned 0))
      fun _ => .of_same (.returned 0) fun opt => ⟨rfl, rfl, rfl⟩

theorem parsePolicyNodes_appends (nodes : List Node) :
    Appends fun opt => parsePolicyNodes yaml opt nodes := by
  induction nodes with
  | nil => exact .of_same _ fun opt => ⟨rfl, rfl, rfl⟩
  | cons node nodes ih =>
      unfold parsePolicyNodes
      split
      · exact ih
      · exact (parseOnePolicy_appends yaml node).andThen ih

theorem parsePolicies_appends (policiesNode : Node) :
    Appends fun opt => parsePolicies yaml opt policiesNode := by
  unfold parsePolicies
  split
  · exact .of_same _ fun opt => ⟨rfl, rfl, rfl⟩
  · split
    · exact .of_same _ fun opt => ⟨rfl, rfl, rfl⟩
    · exact parsePolicyNodes_appends yaml _

theorem parseConfig_appends (config : Node) : Appends fun opt => parseConfig yaml opt config := by
  unfold parseConfig
  split
  · exact .of_same _ fun opt => ⟨rfl, rfl, rfl⟩
  · next optionNode _ =>
    refine (parseOption_appends yaml optionNode).bind (g := fun b opt => match b with
      | .thrown => (opt, .thrown)
      | .returned ret =>
          if ret < 0 then (opt, .returned ret)
          else
            match yaml.subscript config "policies" with
            | none => (opt, .thrown)
            | some policiesNode => parsePolicies yaml opt policiesNode) fun b => ?_
    cases b with
    | thrown => exact .of_same _ fun opt => ⟨rfl, rfl, rfl⟩
    | returned ret =>
        dsimp only
        split
        · exact .of_same _ fun opt => ⟨rfl, rfl, rfl⟩
        · split
          · exact .of_same _ fun opt => ⟨rfl, rfl, rfl⟩
          · exact parsePolicies_appends yaml _

/-- **One parse.** It adds what a new parser gets from the file. -/
theorem reparse_appends (file : Option Node) : Appends fun opt => reparse yaml opt file := by
  unfold reparse
  split
  · exact .of_same _ fun opt => ⟨rfl, rfl, rfl⟩
  · next config =>
    refine (parseConfig_appends yaml config).bind (g := fun b opt => match b with
      | .thrown => (opt, -1)
      | .returned ret => (opt, ret)) fun b => ?_
    cases b <;> exact .of_same _ fun opt => ⟨rfl, rfl, rfl⟩

/-- What a parse adds is what a new parser gets. -/
theorem Appends.eq_fresh {f : Options F → Options F × β} (hf : Appends f) (opt : Options F) :
    (f opt).1.numaHwConfigV2 = opt.numaHwConfigV2 ++ (f (.fresh F)).1.numaHwConfigV2 ∧
      (f opt).1.policies = opt.policies ++ (f (.fresh F)).1.policies := by
  obtain ⟨nodes, policies, b, hf⟩ := hf
  obtain ⟨-, hnodes, hpolicies⟩ := hf opt
  obtain ⟨-, hnodes', hpolicies'⟩ := hf (.fresh F)
  rw [hnodes, hpolicies, hnodes', hpolicies']
  exact ⟨rfl, rfl⟩

/-! ### Reloads -/

/-- Every sequence of configuration files, read by one parser: after the last
one the policies and the NUMA nodes are those that a new parser gets from the last
file, and every process matches the same policy, if and only if the parser had
neither policies nor NUMA nodes before it. -/
theorem reparse_eq_fresh_iff (files : List (Option Node)) (file : Option Node) :
    ((reparse yaml (reparseAll yaml (.fresh F) files) file).1.policies =
          (reparse yaml (.fresh F) file).1.policies ∧
        (reparse yaml (reparseAll yaml (.fresh F) files) file).1.numaHwConfigV2 =
          (reparse yaml (.fresh F) file).1.numaHwConfigV2 ∧
        ∀ process, matchPolicies process
            (reparse yaml (reparseAll yaml (.fresh F) files) file).1.policies =
          matchPolicies process (reparse yaml (.fresh F) file).1.policies) ↔
      (reparseAll yaml (.fresh F) files).policies = [] ∧
        (reparseAll yaml (.fresh F) files).numaHwConfigV2 = [] := by
  generalize reparseAll yaml (.fresh F) files = before
  obtain ⟨hnodes, hpolicies⟩ := (reparse_appends yaml file).eq_fresh before
  constructor
  · rintro ⟨hp, hn, -⟩
    exact ⟨List.append_left_eq_self.mp (hpolicies.symm.trans hp),
      List.append_left_eq_self.mp (hnodes.symm.trans hn)⟩
  · rintro ⟨hp, hn⟩
    rw [hp, List.nil_append] at hpolicies
    rw [hn, List.nil_append] at hnodes
    exact ⟨hpolicies, hnodes, fun process => by rw [hpolicies]⟩

/-- What a parser has after a sequence of files: all that they list. -/
theorem reparseAll_eq (files : List (Option Node)) (opt : Options F) :
    (reparseAll yaml opt files).policies = opt.policies ++
        files.flatMap (fun file => (reparse yaml (.fresh F) file).1.policies) ∧
      (reparseAll yaml opt files).numaHwConfigV2 = opt.numaHwConfigV2 ++
        files.flatMap (fun file => (reparse yaml (.fresh F) file).1.numaHwConfigV2) := by
  induction files generalizing opt with
  | nil => simp [reparseAll]
  | cons file files ih =>
      obtain ⟨hnodes, hpolicies⟩ := (reparse_appends yaml file).eq_fresh opt
      obtain ⟨ihp, ihn⟩ := ih (reparse yaml opt file).1
      refine ⟨ihp.trans ?_, ihn.trans ?_⟩
      · rw [hpolicies, List.flatMap_cons, List.append_assoc]
      · rw [hnodes, List.flatMap_cons, List.append_assoc]

end Appends

/-! ### A reload that changes the policy of a process -/

/-- A YAML node of the files below. -/
inductive TextNode where
  | undefined
  | scalar (text : String)
  | sequence (elements : List TextNode)
  | map (items : List (String × TextNode))

/-- The YAML library on these nodes; no text is a floating point value. -/
def textYaml : Yaml TextNode Empty where
  subscript
    | .map items, key => some ((items.lookup key).getD .undefined)
    | _, _ => none
  isDefined | .undefined => false | _ => true
  isMap | .map _ => true | _ => false
  isSequence | .sequence _ => true | _ => false
  items
    | .map items => items.map fun item => (.scalar item.1, item.2)
    | _ => []
  elements | .sequence elements => elements | _ => []
  asString | .scalar text => some text | _ => none
  asInt | .scalar text => (scanInt text.toList).map Prod.fst | _ => none
  asFloat _ := none

/-- A file with a policy for the process `qemu`. -/
def qemuFile (migration : String) : Option TextNode :=
  some (.map [("options", .map [("loop", .scalar "1")]),
    ("policies", .sequence [.map [("name", .scalar "qemu"), ("migration", .scalar migration)]])])

/-- A reload of the file after its policy was changed from `hot` to `none`: the
process keeps the old policy. -/
theorem reparse_qemuFile :
    let opt := reparse textYaml (reparseAll textYaml (.fresh Empty) [qemuFile "hot"])
      (qemuFile "none")
    opt.2 = 0 ∧ (opt.1.policies.map Policy.migrateWhat = [.hot, .none]) ∧
      (matchPolicies ⟨42, "qemu"⟩ opt.1.policies).map Policy.migrateWhat = some .hot ∧
      (matchPolicies ⟨42, "qemu"⟩
        (reparse textYaml (.fresh Empty) (qemuFile "none")).1.policies).map
          Policy.migrateWhat = some .none := by
  decide +kernel

end OptionParser

end MemoryOptimizer
