import MemoryOptimizer.Config.Parser
import Mathlib.Tactic.SplitIfs

/-!
# What a failed reload leaves behind

`reparse` stores while it reads: every option, NUMA node and policy that stands in
front of the place where the reading fails is kept.  `readFile` lists what a
document has stored by then, whatever the options were before
(`reparse_eq_stored`), so a reload that fails leaves the options alone just when
that list does (`reparse_unchanged_iff`).
-/

namespace MemoryOptimizer.OptionParser

/-- What a parse stores: the value of an option, a NUMA node, or a policy. -/
inductive Stored (Node : Type*) where
  | option (key : String) (value : Node)
  | numaNode (entry : NumaHWConfigEntry)
  | policy (policy : Policy)

section Reload

variable {Node F : Type*} (yaml : Yaml Node F)

/-- One store. -/
def store (opt : Options F) : Stored Node → Options F
  | .option key value =>
      match (optionKinds.lookup key).bind fun kind =>
          optionValue yaml (opt.values key) kind value with
      | some v => { opt with values := Function.update opt.values key v }
      | none => opt
  | .numaNode entry => { opt with numaHwConfigV2 := opt.numaHwConfigV2 ++ [entry] }
  | .policy policy => { opt with policies := opt.policies ++ [policy] }

/-! ### What a document stores -/

/-- A part and what follows it, if it does not throw. -/
def andThen (r r' : List (Stored Node) × Outcome) : List (Stored Node) × Outcome :=
  match r.2 with
  | .thrown => r
  | .returned _ => (r.1 ++ r'.1, r'.2)

def readNumaNodes : List (Node × Node) → List (Stored Node) × Outcome
  | [] => ([], .returned 0)
  | (key, node) :: items =>
      match yaml.asString key, parseOneNumaNode yaml node with
      | some id, some entry =>
          andThen ([.numaNode (entry.set "id" id)], .returned 0) (readNumaNodes items)
      | _, _ => ([], .thrown)

def readOptionItem (item : Node × Node) : List (Stored Node) × Outcome :=
  match yaml.asString item.1 with
  | none => ([], .thrown)
  | some key =>
      match optionKinds.lookup key with
      | some kind =>
          match optionValue yaml none kind item.2 with
          | some _ => ([.option key item.2], .returned 0)
          | none => ([], .thrown)
      | none =>
          if key = "numa_nodes" then readNumaNodes yaml (yaml.items item.2)
          else ([], .returned 0)

def readOptionItems : List (Node × Node) → List (Stored Node) × Outcome
  | [] => ([], .returned 0)
  | item :: items => andThen (readOptionItem yaml item) (readOptionItems items)

def readPolicy (policyNode : Node) : List (Stored Node) × Outcome :=
  match (yaml.items policyNode).foldlM (parsePolicyItem yaml) {} with
  | none => ([], .thrown)
  | some newPolicy =>
      if newPolicy.pid < 0 ∧ newPolicy.name = "" then ([], .returned 0)
      else ([.policy newPolicy], .returned 0)

def readPolicyNodes : List Node → List (Stored Node) × Outcome
  | [] => ([], .returned 0)
  | node :: nodes =>
      if ¬yaml.isMap node then readPolicyNodes nodes
      else andThen (readPolicy yaml node) (readPolicyNodes nodes)

def readPolicies (policiesNode : Option Node) : List (Stored Node) × Outcome :=
  match policiesNode with
  | none => ([], .thrown)
  | some policiesNode =>
      if ¬yaml.isDefined policiesNode ∨ ¬yaml.isSequence policiesNode then ([], .returned (-1))
      else readPolicyNodes yaml (yaml.elements policiesNode)

/-- The sections of a document, up to where the reading fails. -/
def readConfig (config : Node) : List (Stored Node) × Outcome :=
  match yaml.subscript config "options" with
  | none => ([], .thrown)
  | some optionNode =>
      if ¬yaml.isDefined optionNode ∨ ¬yaml.isMap optionNode then ([], .returned (-1))
      else
        andThen (readOptionItems yaml (yaml.items optionNode))
          (readPolicies yaml (yaml.subscript config "policies"))

/-- What a file stores. -/
def storedBy (file : Option Node) : List (Stored Node) :=
  match file with
  | none => []
  | some config => (readConfig yaml config).1

/-! ### The parser stores this -/

/-- `f` makes the stores of `r` and ends like it, whatever was there. -/
def Stores (f : Options F → Options F × Outcome) (r : List (Stored Node) × Outcome) : Prop :=
  ∀ opt, f opt = (r.1.foldl (store yaml) opt, r.2)

theorem Stores.andThen {f g : Options F → Options F × Outcome}
    {r r' : List (Stored Node) × Outcome} (hf : Stores yaml f r) (hg : Stores yaml g r') :
    Stores yaml (fun opt =>
      match (f opt).2 with
      | .thrown => ((f opt).1, .thrown)
      | .returned _ => g (f opt).1) (andThen r r') := by
  intro opt
  obtain ⟨stored, outcome⟩ := r
  simp only [hf opt, OptionParser.andThen]
  cases outcome with
  | thrown => rfl
  | returned ret => rw [hg, List.foldl_append]

theorem parseNumaNodes_stores (items : List (Node × Node)) :
    Stores yaml (fun opt => parseNumaNodes yaml opt items) (readNumaNodes yaml items) := by
  induction items with
  | nil => exact fun opt => rfl
  | cons item items ih =>
      intro opt
      cases hid : yaml.asString item.1 with
      | none => simp [parseNumaNodes, readNumaNodes, hid]
      | some id =>
          cases hentry : parseOneNumaNode yaml item.2 with
          | none => simp [parseNumaNodes, readNumaNodes, hentry]
          | some entry =>
              simp only [parseNumaNodes, readNumaNodes, hid, hentry, andThen]
              exact ih _

theorem parseOptionItem_stores (item : Node × Node) :
    Stores yaml (fun opt => parseOptionItem yaml opt item) (readOptionItem yaml item) := by
  intro opt
  cases hkey : yaml.asString item.1 with
  | none => simp [parseOptionItem, readOptionItem, hkey]
  | some key =>
      cases hkind : optionKinds.lookup key with
      | some kind =>
          have hsame := optionValue_eq_none_iff yaml (opt.values key) none kind item.2
          cases hvalue : optionValue yaml none kind item.2 with
          | none =>
              have hold := hsame.mpr hvalue
              simp [parseOptionItem, readOptionItem, hkey, hkind, hvalue, hold]
          | some value =>
              cases hold : optionValue yaml (opt.values key) kind item.2 with
              | none => exact absurd (hsame.mp hold) (by simp [hvalue])
              | some value' =>
                  simp [parseOptionItem, readOptionItem, store, hkey, hkind, hvalue, hold]
      | none =>
          by_cases hnodes : key = "numa_nodes"
          · simp only [parseOptionItem, readOptionItem, hkey, hkind, if_pos hnodes]
            exact parseNumaNodes_stores yaml _ opt
          · simp [parseOptionItem, readOptionItem, hkey, hkind, hnodes]

theorem parseOptionItems_stores (items : List (Node × Node)) :
    Stores yaml (fun opt => parseOptionItems yaml opt items) (readOptionItems yaml items) := by
  induction items with
  | nil => exact fun opt => rfl
  | cons item items ih => exact (parseOptionItem_stores yaml item).andThen yaml ih

theorem parseOnePolicy_stores (policyNode : Node) :
    Stores yaml (fun opt => parseOnePolicy yaml opt policyNode) (readPolicy yaml policyNode) := by
  intro opt
  simp only [parseOnePolicy, readPolicy, addPolicy]
  cases (yaml.items policyNode).foldlM (parsePolicyItem yaml) {} with
  | none => rfl
  | some newPolicy =>
      by_cases hrejected : newPolicy.pid < 0 ∧ newPolicy.name = ""
      · simp [hrejected]
      · simp [hrejected, store]

theorem parsePolicyNodes_stores (nodes : List Node) :
    Stores yaml (fun opt => parsePolicyNodes yaml opt nodes) (readPolicyNodes yaml nodes) := by
  induction nodes with
  | nil => exact fun opt => rfl
  | cons node nodes ih =>
      intro opt
      show parsePolicyNodes yaml opt (node :: nodes) = _
      rw [parsePolicyNodes, readPolicyNodes]
      split
      · exact ih opt
      · exact (parseOnePolicy_stores yaml node).andThen yaml ih opt

/-- A part that does not return a number of its own: it returns 0 or throws. -/
theorem andThen_outcome {r r' : List (Stored Node) × Outcome}
    (hr : r.2 = .returned 0 ∨ r.2 = .thrown) (hr' : r'.2 = .returned 0 ∨ r'.2 = .thrown) :
    (andThen r r').2 = .returned 0 ∨ (andThen r r').2 = .thrown := by
  rcases hr with h | h
  · simpa only [andThen, h] using hr'
  · simp only [andThen, h, reduceCtorEq, or_true]

theorem readNumaNodes_outcome (items : List (Node × Node)) :
    (readNumaNodes yaml items).2 = .returned 0 ∨ (readNumaNodes yaml items).2 = .thrown := by
  induction items with
  | nil => exact Or.inl rfl
  | cons item items ih =>
      rw [readNumaNodes]
      split
      · exact andThen_outcome (Or.inl rfl) ih
      · exact Or.inr rfl

theorem readOptionItem_outcome (item : Node × Node) :
    (readOptionItem yaml item).2 = .returned 0 ∨ (readOptionItem yaml item).2 = .thrown := by
  unfold readOptionItem
  split
  · exact Or.inr rfl
  · split
    · split
      · exact Or.inl rfl
      · exact Or.inr rfl
    · split
      · exact readNumaNodes_outcome yaml _
      · exact Or.inl rfl

theorem readOptionItems_outcome (items : List (Node × Node)) :
    (readOptionItems yaml items).2 = .returned 0 ∨ (readOptionItems yaml items).2 = .thrown := by
  induction items with
  | nil => exact Or.inl rfl
  | cons item items ih => exact andThen_outcome (readOptionItem_outcome yaml item) ih

theorem readPolicy_outcome (node : Node) :
    (readPolicy yaml node).2 = .returned 0 ∨ (readPolicy yaml node).2 = .thrown := by
  unfold readPolicy
  split
  · exact Or.inr rfl
  · split <;> exact Or.inl rfl

theorem readPolicyNodes_outcome (nodes : List Node) :
    (readPolicyNodes yaml nodes).2 = .returned 0 ∨ (readPolicyNodes yaml nodes).2 = .thrown := by
  induction nodes with
  | nil => exact Or.inl rfl
  | cons node nodes ih =>
      rw [readPolicyNodes]
      split
      · exact ih
      · exact andThen_outcome (readPolicy_outcome yaml node) ih

theorem parsePolicies_stores (policiesNode : Node) :
    Stores yaml (fun opt => parsePolicies yaml opt policiesNode)
      (readPolicies yaml (some policiesNode)) := by
  intro opt
  by_cases hdefined : yaml.isDefined policiesNode
  · by_cases hsequence : yaml.isSequence policiesNode
    · simpa [parsePolicies, readPolicies, hdefined, hsequence] using
        parsePolicyNodes_stores yaml (yaml.elements policiesNode) opt
    · simp [parsePolicies, readPolicies, hsequence]
  · simp [parsePolicies, readPolicies, hdefined]

theorem parseConfig_stores (config : Node) :
    Stores yaml (fun opt => parseConfig yaml opt config) (readConfig yaml config) := by
  intro opt
  unfold parseConfig readConfig
  cases yaml.subscript config "options" with
  | none => rfl
  | some optionNode =>
      by_cases hdefined : yaml.isDefined optionNode
      · by_cases hmap : yaml.isMap optionNode
        · have hitems := parseOptionItems_stores yaml (yaml.items optionNode) opt
          simp only [parseOption, hdefined, hmap, not_true_eq_false, if_false, or_false, hitems,
            andThen]
          rcases readOptionItems_outcome yaml (yaml.items optionNode) with h | h
          · simp only [h, Int.lt_irrefl, if_false]
            cases yaml.subscript config "policies" with
            | none => simp [readPolicies]
            | some policiesNode =>
                simp only [parsePolicies_stores yaml policiesNode _, List.foldl_append]
          · simp only [h]
        · simp [parseOption, hdefined, hmap]
      · simp [parseOption, hdefined]

/-- A reload stores what the document lists, whatever the options were. -/
theorem reparse_eq_stored (opt : Options F) (file : Option Node) :
    (reparse yaml opt file).1 = (storedBy yaml file).foldl (store yaml) opt := by
  cases file with
  | none => rfl
  | some config =>
      have hconfig := parseConfig_stores yaml config opt
      simp only [reparse, storedBy, hconfig]
      cases (readConfig yaml config).2 <;> rfl

/-! ### Where the reading fails -/

/-- The scalar of an option converts. -/
def ValueReadable (kind : OptionKind) (value : Node) : Prop :=
  match kind with
  | .int => (yaml.asInt value).isSome
  | .float => (yaml.asFloat value).isSome
  | .text | .bool => (yaml.asString value).isSome

/-- The keys and the fields of the NUMA nodes convert. -/
def NumaNodeReadable (item : Node × Node) : Prop :=
  (yaml.asString item.1).isSome ∧
    ∀ field ∈ yaml.items item.2, (yaml.asString field.1).isSome ∧ (yaml.asString field.2).isSome

/-- The key and the value of an item of the options convert. -/
def OptionReadable (item : Node × Node) : Prop :=
  ∃ key, yaml.asString item.1 = some key ∧
    (∀ kind, optionKinds.lookup key = some kind → ValueReadable yaml kind item.2) ∧
    (key = "numa_nodes" → ∀ node ∈ yaml.items item.2, NumaNodeReadable yaml node)

/-- The key and the value of an item of a policy convert. -/
def PolicyItemReadable (item : Node × Node) : Prop :=
  ∃ key, yaml.asString item.1 = some key ∧
    (key = "pid" → (yaml.asInt item.2).isSome) ∧
    (key ∈ ["name", "migration", "placement", "dump_distribution"] →
      (yaml.asString item.2).isSome)

/-- The options are a map whose items convert. -/
def OptionsReadable (optionNode : Node) : Prop :=
  yaml.isDefined optionNode ∧ yaml.isMap optionNode ∧
    ∀ item ∈ yaml.items optionNode, OptionReadable yaml item

/-- The policies are a sequence in which the items of the maps convert. -/
def PoliciesReadable (policiesNode : Node) : Prop :=
  yaml.isDefined policiesNode ∧ yaml.isSequence policiesNode ∧
    ∀ node ∈ yaml.elements policiesNode, yaml.isMap node →
      ∀ item ∈ yaml.items node, PolicyItemReadable yaml item

/-- The document is there, and both of its sections are readable. -/
def Readable (file : Option Node) : Prop :=
  ∃ config ∈ file,
    (∃ optionNode ∈ yaml.subscript config "options", OptionsReadable yaml optionNode) ∧
    ∃ policiesNode ∈ yaml.subscript config "policies", PoliciesReadable yaml policiesNode

/-- A fold whose steps fail or not by the item alone. -/
theorem foldlM_isSome_iff {α β : Type*} {f : β → α → Option β} {p : α → Prop}
    (h : ∀ b a, (f b a).isSome ↔ p a) (l : List α) (b : β) :
    (l.foldlM f b).isSome ↔ ∀ a ∈ l, p a := by
  induction l generalizing b with
  | nil => simp
  | cons a l ih =>
      rw [List.foldlM_cons, List.forall_mem_cons, ← h b a]
      cases f b a with
      | none => simp
      | some b' => simpa using ih b'

theorem andThen_returned (r r' : List (Stored Node) × Outcome)
    (hr : r.2 = .returned 0 ∨ r.2 = .thrown) :
    (andThen r r').2 = .returned 0 ↔ r.2 = .returned 0 ∧ r'.2 = .returned 0 := by
  rcases hr with h | h <;> simp [andThen, h]

theorem readNumaNodes_returned (items : List (Node × Node)) :
    (readNumaNodes yaml items).2 = .returned 0 ↔
      ∀ item ∈ items, NumaNodeReadable yaml item := by
  have hfields : ∀ node, (parseOneNumaNode yaml node).isSome ↔ ∀ field ∈ yaml.items node,
      (yaml.asString field.1).isSome ∧ (yaml.asString field.2).isSome := by
    refine fun node => foldlM_isSome_iff (fun entry field => ?_) _ _
    cases yaml.asString field.2 <;> cases yaml.asString field.1 <;> simp
  induction items with
  | nil => simp [readNumaNodes]
  | cons item items ih =>
      have hentry := hfields item.2
      rw [List.forall_mem_cons, NumaNodeReadable, ← hentry]
      cases hid : yaml.asString item.1 <;> cases hentry : parseOneNumaNode yaml item.2 <;>
        simp [readNumaNodes, hid, hentry, andThen, ih]

theorem optionValue_isSome (kind : OptionKind) (value : Node) :
    (optionValue yaml none kind value).isSome ↔ ValueReadable yaml kind value := by
  cases kind with
  | int => exact Bool.eq_iff_iff.mp Option.isSome_map
  | float => exact Bool.eq_iff_iff.mp Option.isSome_map
  | text => exact Bool.eq_iff_iff.mp Option.isSome_map
  | bool => exact Bool.eq_iff_iff.mp Option.isSome_map

theorem readOptionItem_returned (item : Node × Node) :
    (readOptionItem yaml item).2 = .returned 0 ↔ OptionReadable yaml item := by
  unfold readOptionItem OptionReadable
  cases yaml.asString item.1 with
  | none => simp
  | some key =>
      simp only [Option.some.injEq, exists_eq_left']
      cases hkind : optionKinds.lookup key with
      | some kind =>
          have hnone : optionKinds.lookup "numa_nodes" = none := by decide
          have hnodes : key ≠ "numa_nodes" := by
            rintro rfl
            exact absurd (hkind.symm.trans hnone) (Option.some_ne_none kind)
          have hvalue := optionValue_isSome yaml kind item.2
          cases h : optionValue yaml none kind item.2 with
          | none =>
              rw [h] at hvalue
              simp [h, ← hvalue]
          | some value =>
              rw [h] at hvalue
              simp [h, hnodes, ← hvalue]
      | none =>
          by_cases hnodes : key = "numa_nodes"
          · simpa [hnodes] using readNumaNodes_returned yaml (yaml.items item.2)
          · simp [hnodes]

theorem readOptionItems_returned (items : List (Node × Node)) :
    (readOptionItems yaml items).2 = .returned 0 ↔ ∀ item ∈ items, OptionReadable yaml item := by
  induction items with
  | nil => simp [readOptionItems]
  | cons item items ih =>
      rw [readOptionItems, andThen_returned _ _ (readOptionItem_outcome yaml item),
        readOptionItem_returned, ih, List.forall_mem_cons]

theorem parsePolicyItem_isSome (policy : Policy) (item : Node × Node) :
    (parsePolicyItem yaml policy item).isSome ↔ PolicyItemReadable yaml item := by
  unfold parsePolicyItem PolicyItemReadable
  cases yaml.asString item.1 with
  | none => simp
  | some key =>
      simp only [Option.bind_eq_bind, Option.bind_some, Option.some.injEq, exists_eq_left',
        List.mem_cons, List.not_mem_nil, or_false]
      split_ifs with hpid hname hmigration hplacement hdump
      · subst hpid
        cases yaml.asInt item.2 <;> simp
      · cases yaml.asString item.2 <;> simp [hname]
      · cases yaml.asString item.2 <;> simp [hmigration]
      · cases yaml.asString item.2 <;> simp [hplacement]
      · cases yaml.asString item.2 <;> simp [hdump]
      · simp [hpid, hname, hmigration, hplacement, hdump]

theorem readPolicyNodes_returned (nodes : List Node) :
    (readPolicyNodes yaml nodes).2 = .returned 0 ↔
      ∀ node ∈ nodes, yaml.isMap node → ∀ item ∈ yaml.items node, PolicyItemReadable yaml item := by
  induction nodes with
  | nil => simp [readPolicyNodes]
  | cons node nodes ih =>
      have hitems := foldlM_isSome_iff (parsePolicyItem_isSome yaml) (yaml.items node) {}
      rw [readPolicyNodes, List.forall_mem_cons]
      by_cases hmap : yaml.isMap node = true
      · rw [if_neg (not_not.mpr hmap), andThen_returned _ _ (readPolicy_outcome yaml node), ih,
          imp_iff_right hmap, ← hitems, readPolicy]
        refine and_congr_left fun _ => ?_
        cases (yaml.items node).foldlM (parsePolicyItem yaml) {} with
        | none => simp
        | some newPolicy =>
            by_cases hrejected : newPolicy.pid < 0 ∧ newPolicy.name = "" <;> simp [hrejected]
      · rw [if_pos hmap, ih]
        simp [hmap]

theorem readPolicies_returned (policiesNode : Option Node) :
    (readPolicies yaml policiesNode).2 = .returned 0 ↔
      ∃ node ∈ policiesNode, PoliciesReadable yaml node := by
  cases policiesNode with
  | none => simp [readPolicies]
  | some node =>
      have hnodes := readPolicyNodes_returned yaml (yaml.elements node)
      by_cases hdefined : yaml.isDefined node
      · by_cases hsequence : yaml.isSequence node
        · simp [readPolicies, PoliciesReadable, hdefined, hsequence, hnodes]
        · simp [readPolicies, PoliciesReadable, hsequence]
      · simp [readPolicies, PoliciesReadable, hdefined]

theorem readPolicies_outcome (policiesNode : Option Node) :
    (readPolicies yaml policiesNode).2 = .returned 0 ∨
      (readPolicies yaml policiesNode).2 = .returned (-1) ∨
      (readPolicies yaml policiesNode).2 = .thrown := by
  unfold readPolicies
  split
  · exact Or.inr (Or.inr rfl)
  · split
    · exact Or.inr (Or.inl rfl)
    · exact (readPolicyNodes_outcome yaml _).imp_right Or.inr

theorem readConfig_returned (config : Node) :
    (readConfig yaml config).2 = .returned 0 ↔ Readable yaml (some config) := by
  simp only [Readable, Option.mem_some_iff, exists_eq_left']
  cases hsection : yaml.subscript config "options" with
  | none => simp [readConfig, hsection]
  | some optionNode =>
      have hitems := readOptionItems_returned yaml (yaml.items optionNode)
      have houtcome := readOptionItems_outcome yaml (yaml.items optionNode)
      have hpolicies := readPolicies_returned yaml (yaml.subscript config "policies")
      by_cases hdefined : yaml.isDefined optionNode
      · by_cases hmap : yaml.isMap optionNode
        · simp [readConfig, OptionsReadable, hsection, hdefined, hmap,
            andThen_returned _ _ houtcome, hitems, hpolicies]
        · simp [readConfig, OptionsReadable, hsection, hmap]
      · simp [readConfig, OptionsReadable, hsection, hdefined]

theorem readConfig_outcome (config : Node) :
    (readConfig yaml config).2 = .returned 0 ∨ (readConfig yaml config).2 = .returned (-1) ∨
      (readConfig yaml config).2 = .thrown := by
  unfold readConfig
  split
  · exact Or.inr (Or.inr rfl)
  · split
    · exact Or.inr (Or.inl rfl)
    · rename_i optionNode _ _
      rcases readOptionItems_outcome yaml (yaml.items optionNode) with h | h
      · simpa only [andThen, h] using readPolicies_outcome yaml _
      · simp [andThen, h]

/-- A reload fails on the documents that are not readable. -/
theorem reparse_neg_iff (opt : Options F) (file : Option Node) :
    (reparse yaml opt file).2 < 0 ↔ ¬Readable yaml file := by
  cases file with
  | none => simp [reparse, Readable]
  | some config =>
      have hconfig := parseConfig_stores yaml config opt
      rw [← readConfig_returned]
      simp only [reparse, hconfig]
      rcases readConfig_outcome yaml config with h | h | h <;> simp [h]

/-! ### What is left unchanged -/

/-- The value of an option; the booleans are false by default. -/
def Options.value (defaults : String → OptionValue F) (opt : Options F) (key : String) :
    OptionValue F :=
  match optionKinds.lookup key with
  | some .bool => .bool (match opt.values key with | some (.bool b) => b | _ => false)
  | _ => (opt.values key).getD (defaults key)

/-- Every option, the NUMA nodes and the policies are as before. -/
structure Unchanged (defaults : String → OptionValue F) (opt opt' : Options F) : Prop where
  value_eq : ∀ key, opt'.value defaults key = opt.value defaults key
  numaHwConfigV2_eq : opt'.numaHwConfigV2 = opt.numaHwConfigV2
  policies_eq : opt'.policies = opt.policies

/-- The value that an option gets from a scalar, if the scalar is understood. -/
def settingValue (key : String) (value : Node) : Option (OptionValue F) :=
  match optionKinds.lookup key with
  | none => none
  | some .bool => (yaml.asString value).bind fun name =>
      let r := parseNameMap boolNameMap (fun n => n ≠ 0) name false 2
      if r.2 < 0 then none else some (.bool r.1)
  | some kind => optionValue yaml none kind value

/-- The value that a store gives an option. -/
def settingOf (key : String) : Stored Node → Option (OptionValue F)
  | .option key' value => if key' = key then settingValue yaml key value else none
  | _ => none

/-- The stores change nothing: no NUMA node and no policy is among them, and every
option is set to the value it has, if not always then last. -/
structure Harmless (defaults : String → OptionValue F) (opt : Options F)
    (stored : List (Stored Node)) : Prop where
  option : ∀ s ∈ stored, ∃ key value, s = .option key value
  last_eq : ∀ key value, (stored.filterMap (settingOf yaml key)).getLast? = some value →
    value = opt.value defaults key

/-- `parse_name_map` keeps the old value just where it returns an error. -/
theorem parseBool_eq (name : String) (val : Bool) :
    parseBool name val =
      if (parseNameMap boolNameMap (fun n => n ≠ 0) name false 2).2 < 0 then val
      else (parseNameMap boolNameMap (fun n => n ≠ 0) name false 2).1 := by
  unfold parseBool parseNameMap
  split
  · split <;> simp
  · cases boolNameMap.lookup name <;> simp

section OptionValue

variable (old : Option (OptionValue F)) (value : Node)

theorem optionValue_int : optionValue yaml old .int value = (yaml.asInt value).map .int := rfl

theorem optionValue_float :
    optionValue yaml old .float value = (yaml.asFloat value).map .float := rfl

theorem optionValue_text : optionValue yaml old .text value = (yaml.asString value).map .text := rfl

theorem optionValue_bool : optionValue yaml old .bool value = (yaml.asString value).map fun name =>
    .bool (parseBool name (match old with | some (.bool b) => b | _ => false)) := rfl

end OptionValue

variable (defaults : String → OptionValue F)

theorem value_update_of_ne (opt : Options F) {key key' : String} (h : key ≠ key')
    (value : Option (OptionValue F)) :
    ({ opt with values := Function.update opt.values key' value } : Options F).value defaults key =
      opt.value defaults key := by
  simp only [Options.value, Function.update_of_ne h]

theorem value_store (opt : Options F) (s : Stored Node) (key : String) :
    (store yaml opt s).value defaults key =
      (settingOf yaml key s).getD (opt.value defaults key) := by
  cases s with
  | numaNode entry => rfl
  | policy policy => rfl
  | option key' value =>
      by_cases hkey : key' = key
      · subst hkey
        rw [settingOf, if_pos rfl]
        cases hkind : optionKinds.lookup key' with
        | none => simp [store, settingValue, hkind]
        | some kind =>
            cases kind with
            | bool =>
                cases hname : yaml.asString value with
                | none =>
                    simp only [store, settingValue, optionValue_bool, hkind, hname,
                      Option.bind_some, Option.map_none, Option.bind_none, Option.getD_none]
                | some name =>
                    simp only [store, settingValue, optionValue_bool, Options.value, hkind, hname,
                      Option.bind_some, Option.map_some, Function.update_self, parseBool_eq name]
                    split <;> rfl
            | int => cases h : yaml.asInt value <;>
                simp [store, settingValue, optionValue_int, Options.value, hkind, h]
            | float => cases h : yaml.asFloat value <;>
                simp [store, settingValue, optionValue_float, Options.value, hkind, h]
            | text => cases h : yaml.asString value <;>
                simp [store, settingValue, optionValue_text, Options.value, hkind, h]
      · rw [settingOf, if_neg hkey, Option.getD_none, store]
        split
        · exact value_update_of_ne defaults opt (Ne.symm hkey) _
        · rfl

theorem value_foldl (opt : Options F) (stored : List (Stored Node)) (key : String) :
    (stored.foldl (store yaml) opt).value defaults key =
      (stored.filterMap (settingOf yaml key)).getLast?.getD (opt.value defaults key) := by
  induction stored generalizing opt with
  | nil => rfl
  | cons s stored ih =>
      rw [List.foldl_cons, ih, value_store]
      cases h : settingOf yaml key s with
      | none => simp [h]
      | some value => simp [h, List.getLast?_cons]

theorem lists_foldl (opt : Options F) (stored : List (Stored Node)) :
    (stored.foldl (store yaml) opt).numaHwConfigV2 =
        opt.numaHwConfigV2 ++ stored.filterMap (fun s => match s with
          | .numaNode entry => some entry
          | _ => none) ∧
      (stored.foldl (store yaml) opt).policies =
        opt.policies ++ stored.filterMap (fun s => match s with
          | .policy policy => some policy
          | _ => none) := by
  induction stored generalizing opt with
  | nil => simp
  | cons s stored ih =>
      obtain ⟨hnodes, hpolicies⟩ := ih (store yaml opt s)
      rw [List.foldl_cons, hnodes, hpolicies]
      cases s with
      | numaNode entry => simp [store]
      | policy policy => simp [store]
      | option key value =>
          simp only [store]
          split <;> simp

theorem unchanged_foldl_iff (opt : Options F) (stored : List (Stored Node)) :
    Unchanged defaults opt (stored.foldl (store yaml) opt) ↔
      Harmless yaml defaults opt stored := by
  obtain ⟨hnodes, hpolicies⟩ := lists_foldl yaml opt stored
  have hvalue := value_foldl yaml defaults opt stored
  constructor
  · rintro ⟨hvalue', hnodes', hpolicies'⟩
    rw [hnodes, List.append_right_eq_self] at hnodes'
    rw [hpolicies, List.append_right_eq_self] at hpolicies'
    refine ⟨fun s hs => ?_, fun key value hlast => ?_⟩
    · cases s with
      | option key value => exact ⟨key, value, rfl⟩
      | numaNode entry => exact absurd (List.filterMap_eq_nil_iff.mp hnodes' _ hs) (by simp)
      | policy policy => exact absurd (List.filterMap_eq_nil_iff.mp hpolicies' _ hs) (by simp)
    · have h := hvalue key
      rw [hvalue' key, hlast] at h
      exact h.symm
  · rintro ⟨hoption, hlast⟩
    refine ⟨fun key => ?_, ?_, ?_⟩
    · rw [hvalue]
      cases h : (stored.filterMap (settingOf yaml key)).getLast? with
      | none => rfl
      | some value => exact hlast key value h
    · rw [hnodes, List.append_right_eq_self, List.filterMap_eq_nil_iff]
      intro s hs
      obtain ⟨key, value, rfl⟩ := hoption s hs
      rfl
    · rw [hpolicies, List.append_right_eq_self, List.filterMap_eq_nil_iff]
      intro s hs
      obtain ⟨key, value, rfl⟩ := hoption s hs
      rfl

/-- The documents that a failing reload takes without a trace, or that do not fail. -/
theorem reparse_unchanged_iff (opt : Options F) (file : Option Node) :
    ((reparse yaml opt file).2 < 0 → Unchanged defaults opt (reparse yaml opt file).1) ↔
      Readable yaml file ∨ Harmless yaml defaults opt (storedBy yaml file) := by
  rw [reparse_neg_iff, reparse_eq_stored, unchanged_foldl_iff, ← or_iff_not_imp_left]

end Reload

/-! ### A reload that fails behind the options -/

/-- A file without policies. -/
def optionsFile : Option TextNode :=
  some (.map [("options", .map [("nr_scans", .scalar "5")])])

/-- `nr_scans`, which is 3 by default. -/
def nrScans (opt : Options Empty) : ℤ :=
  match opt.value (fun _ => .int 3) "nr_scans" with
  | .int n => n
  | _ => 3

/-- The reload of the file fails and sets `nr_scans`. -/
theorem reparse_optionsFile :
    ¬((reparse textYaml (.fresh Empty) optionsFile).2 < 0 →
      Unchanged (fun _ => .int 3) (.fresh Empty)
        (reparse textYaml (.fresh Empty) optionsFile).1) := by
  intro h
  have hfails : (reparse textYaml (.fresh Empty) optionsFile).2 < 0 := by
    rw [reparse_neg_iff]
    rintro ⟨config, hconfig, -, policiesNode, hpolicies, hdefined, -⟩
    cases hconfig
    cases hpolicies
    exact absurd hdefined (by decide)
  have hbefore : nrScans (.fresh Empty) = 3 := by decide +kernel
  have hafter : nrScans (reparse textYaml (.fresh Empty) optionsFile).1 = 5 := by decide +kernel
  rw [nrScans, (h hfails).value_eq "nr_scans"] at hafter
  exact absurd (hbefore.symm.trans hafter) (by decide)

end MemoryOptimizer.OptionParser
