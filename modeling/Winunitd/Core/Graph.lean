import Winunitd.Unit.Names
import Mathlib.Data.List.Basic
import Mathlib.Data.List.Nodup
import Mathlib.Data.List.Sort

/-
  The static dependency graph of loaded units.

  `build` normalizes the declared names, refuses duplicates,
  and derives the ordering edges: a unit waits for the
  loaded units it declares in `After=` and for those that
  declare it in `Before=`.

  Key definitions include:
    * `UnitFile`, `uniqueStable`
    * `Node`, `Graph`
    * `build`

  Key theorems include:
    * `mem_uniqueStable`
    * `build_waitsFor`
-/

------------------------------------------------------------
-- Unit Files
------------------------------------------------------------

namespace Winunitd

/- A parsed unit file, with what the graph reads of it. -/
structure UnitFile (N : Type) where
  name : N
  kind : Kind
  requires : List N
  wants : List N
  bindsTo : List N
  partOf : List N
  after : List N
  before : List N
deriving DecidableEq, Repr

/- A unit without dependencies. -/
def UnitFile.bare
    {N : Type}
    (name : N)
    (kind : Kind) :
    UnitFile N where
  name := name
  kind := kind
  requires := []
  wants := []
  bindsTo := []
  partOf := []
  after := []
  before := []

------------------------------------------------------------
-- Name Lists
------------------------------------------------------------

namespace Core

open UnitNames (normalizeName)

variable {N : Type}
variable [UnitNames N]

/- Append a normalized name unless it is blank or present. -/
def addUnique (out : List N) (s : N) : List N :=
  let s := normalizeName s
  if s = UnitNames.empty then out
  else if s ∈ out then out
  else out ++ [s]

/- Normalized names without blanks and repetitions. -/
def uniqueStable (ss : List N) : List N :=
  ss.foldl addUnique []

/- A non-blank name in normal form. -/
def Normal (n : N) : Prop :=
  normalizeName n = n ∧ n ≠ UnitNames.empty

theorem mem_addUnique
    {out : List N}
    {s x : N} :
    x ∈ addUnique out s ↔
      x ∈ out ∨
        (x = normalizeName s ∧ x ≠ UnitNames.empty) := by
  simp only [addUnique]
  split
  · grind
  split <;> grind

variable {x : N}

private theorem mem_foldl_addUnique
    {ss out : List N} :
    x ∈ ss.foldl addUnique out ↔
      x ∈ out ∨
        (∃ s ∈ ss, normalizeName s = x) ∧
          x ≠ UnitNames.empty := by
  induction ss generalizing out with
  | nil => simp
  | cons s ss ih =>
      rw [List.foldl_cons, ih, mem_addUnique]
      simp only [List.mem_cons, exists_eq_or_imp]
      tauto

variable {ss : List N}

theorem mem_uniqueStable :
    x ∈ uniqueStable ss ↔
      (∃ s ∈ ss, normalizeName s = x) ∧
        x ≠ UnitNames.empty := by
  simp [uniqueStable, mem_foldl_addUnique]

/- What `uniqueStable` lists is in normal form. -/
theorem normal_of_mem_uniqueStable
    (h : x ∈ uniqueStable ss) :
    Normal x := by
  rcases mem_uniqueStable.mp h with ⟨⟨s, _, hs⟩, hNe⟩
  refine ⟨?_, hNe⟩
  rw [← hs, UnitNames.normalizeName_idem]

/- Names already in normal form keep their members. -/
theorem mem_uniqueStable_of_normal
    (h : ∀ s ∈ ss, Normal s) :
    x ∈ uniqueStable ss ↔ x ∈ ss := by
  rw [mem_uniqueStable]
  constructor
  · rintro ⟨⟨s, hs, hEq⟩, _⟩
    rw [(h s hs).1] at hEq
    exact hEq ▸ hs
  · intro hx
    exact ⟨⟨x, hx, (h x hx).1⟩, (h x hx).2⟩

------------------------------------------------------------
-- Nodes And Graphs
------------------------------------------------------------

/- One loaded unit with its normalized dependency lists. -/
structure Node (N : Type) where
  name : N
  unit : UnitFile N
  requires : List N
  wants : List N
  bindsTo : List N
  partOf : List N
  after : List N
  before : List N
  waitsFor : List N

namespace Node

/- Hard start dependencies: `Requires=` and `BindsTo=`. -/
def startRequireNames (n : Node N) : List N :=
  uniqueStable (n.requires ++ n.bindsTo)

def startRequiresName (n : Node N) (name : N) : Bool :=
  name ∈ n.requires || name ∈ n.bindsTo

def stopRequiresName (n : Node N) (name : N) : Bool :=
  name ∈ n.requires || name ∈ n.bindsTo || name ∈ n.partOf

/-
  The forward edges that propagate a stop backwards:
  `Requires=`, `BindsTo=` and `PartOf=`.
-/
def stopDepNames (n : Node N) : List N :=
  uniqueStable (n.requires ++ n.bindsTo ++ n.partOf)

/-
  The name of a node and the names in its dependency lists
  are in normal form.
-/
structure WellNamed (n : Node N) : Prop where
  name : Normal n.name
  requires : ∀ m ∈ n.requires, Normal m
  wants : ∀ m ∈ n.wants, Normal m
  bindsTo : ∀ m ∈ n.bindsTo, Normal m
  partOf : ∀ m ∈ n.partOf, Normal m
  after : ∀ m ∈ n.after, Normal m
  before : ∀ m ∈ n.before, Normal m

theorem WellNamed.mem_startRequireNames
    {n : Node N}
    (h : n.WellNamed)
    {m : N} :
    m ∈ n.startRequireNames ↔ n.startRequiresName m = true := by
  have hNormal : ∀ x ∈ n.requires ++ n.bindsTo, Normal x := by
    intro x hx
    rcases List.mem_append.mp hx with hx | hx
    · exact h.requires x hx
    · exact h.bindsTo x hx
  rw [startRequireNames, mem_uniqueStable_of_normal hNormal]
  simp [startRequiresName]

theorem WellNamed.mem_stopDepNames
    {n : Node N}
    (h : n.WellNamed)
    {m : N} :
    m ∈ n.stopDepNames ↔ n.stopRequiresName m = true := by
  have hNormal :
      ∀ x ∈ n.requires ++ n.bindsTo ++ n.partOf, Normal x := by
    intro x hx
    rcases List.mem_append.mp hx with hx | hx
    · rcases List.mem_append.mp hx with hx | hx
      · exact h.requires x hx
      · exact h.bindsTo x hx
    · exact h.partOf x hx
  rw [stopDepNames, mem_uniqueStable_of_normal hNormal]
  simp [stopRequiresName, or_assoc]

end Node

/-
  A graph of loaded units.  Its names are distinct and in
  normal form, and an ordering edge leads to a loaded unit.
-/
structure Graph (N : Type) [UnitNames N] where
  nodes : List (Node N)
  nodup : (nodes.map Node.name).Nodup
  wellNamed : ∀ n ∈ nodes, n.WellNamed
  waits_loaded :
    ∀ n ∈ nodes, ∀ m ∈ n.waitsFor, m ∈ nodes.map Node.name

namespace Graph

/- The node stored under a key of the node map. -/
def nodeAt (g : Graph N) (key : N) : Option (Node N) :=
  g.nodes.find? (fun n => n.name = key)

/- The node of a name as a caller gives it. -/
def node (g : Graph N) (name : N) : Option (Node N) :=
  g.nodeAt (normalizeName name)

/- A name is loaded if it is a key of the node map. -/
def Loaded (g : Graph N) (name : N) : Prop :=
  name ∈ g.nodes.map Node.name

instance (g : Graph N) (name : N) : Decidable (g.Loaded name) :=
  inferInstanceAs (Decidable (name ∈ _))

/- Loaded unit names in sorted order. -/
def names (g : Graph N) : List N :=
  (g.nodes.map Node.name).insertionSort (· ≤ ·)

/- The ordering predecessors stored for a key. -/
def waitsAt (g : Graph N) (key : N) : List N :=
  match g.nodeAt key with
  | some n => n.waitsFor
  | none => []

variable {g : Graph N}

theorem mem_names
    {name : N} :
    name ∈ g.names ↔ g.Loaded name := by
  rw [names, List.mem_insertionSort]
  exact Iff.rfl

theorem nodeAt_some
    {key : N}
    {n : Node N}
    (h : g.nodeAt key = some n) :
    n ∈ g.nodes ∧ n.name = key := by
  refine ⟨List.mem_of_find?_eq_some h, ?_⟩
  simpa using List.find?_some h

/- A stored node is found under its own name. -/
theorem nodeAt_of_mem
    {n : Node N}
    (h : n ∈ g.nodes) :
    g.nodeAt n.name = some n := by
  cases hFind : g.nodeAt n.name with
  | none =>
      have hNone := List.find?_eq_none.mp hFind n h
      simp at hNone
  | some m =>
      rcases nodeAt_some hFind with ⟨hMem, hName⟩
      have hEq : m = n :=
        List.inj_on_of_nodup_map g.nodup hMem h hName
      rw [hEq]

theorem loaded_iff_nodeAt
    {key : N} :
    g.Loaded key ↔ ∃ n, g.nodeAt key = some n := by
  constructor
  · intro h
    rcases List.mem_map.mp h with ⟨n, hMem, hName⟩
    exact ⟨n, hName ▸ nodeAt_of_mem hMem⟩
  · rintro ⟨n, hn⟩
    rcases nodeAt_some hn with ⟨hMem, hName⟩
    exact List.mem_map.mpr ⟨n, hMem, hName⟩

theorem normal_of_loaded
    {name : N}
    (h : g.Loaded name) :
    Normal name := by
  rcases List.mem_map.mp h with ⟨n, hMem, hName⟩
  exact hName ▸ (g.wellNamed n hMem).name

end Graph

------------------------------------------------------------
-- Building
------------------------------------------------------------

/- Reasons for which `build` refuses a list of units. -/
inductive BuildError (N : Type) where
| nilUnit (i : Nat)
| emptyName (i : Nat)
| duplicate (name : N)
deriving DecidableEq, Repr

def BuildError.error : BuildError N → String
| .nilUnit i => "unit " ++ toString i ++ " is nil"
| .emptyName i =>
    "unit " ++ toString i ++ " has an empty name"
| .duplicate name => "duplicate unit " ++ UnitNames.quote name

/- The node of a unit, before ordering edges are known. -/
def newNode (u : UnitFile N) : Node N where
  name := normalizeName u.name
  unit := u
  requires := uniqueStable u.requires
  wants := uniqueStable u.wants
  bindsTo := uniqueStable u.bindsTo
  partOf := uniqueStable u.partOf
  after := uniqueStable u.after
  before := uniqueStable u.before
  waitsFor := []

/- Add the `i`th unit to the node map. -/
def addUnit
    (i : Nat)
    (nodes : List (Node N)) :
    Option (UnitFile N) → Except (BuildError N) (List (Node N))
| none => .error (.nilUnit i)
| some u =>
    let name := normalizeName u.name
    if name = UnitNames.empty then .error (.emptyName i)
    else if name ∈ nodes.map Node.name then
      .error (.duplicate name)
    else .ok (nodes ++ [newNode u])

/- Add units in order, counting from `i`. -/
def addUnits :
    List (Option (UnitFile N)) → Nat → List (Node N) →
      Except (BuildError N) (List (Node N))
| [], _, nodes => .ok nodes
| u :: us, i, nodes =>
    match addUnit i nodes u with
    | .error e => .error e
    | .ok nodes => addUnits us (i + 1) nodes

/- A unit waits for the loaded units of its `After=`. -/
def waitAfter (nodes : List (Node N)) (n : Node N) : Node N :=
  { n with
    waitsFor :=
      uniqueStable
        (n.after.filter (fun m => m ∈ nodes.map Node.name)) }

/- `o` waits for `name` if it is the unit `later`. -/
def waitBefore (name later : N) (o : Node N) : Node N :=
  if o.name = later ∧ name ∉ o.waitsFor then
    { o with waitsFor := o.waitsFor ++ [name] }
  else
    o

/- The `Before=` list of `n`, added to the units it names. -/
def orderBefore
    (nodes : List (Node N))
    (n : Node N) :
    List (Node N) :=
  n.before.foldl
    (fun ns later => ns.map (waitBefore n.name later)) nodes

/- Both passes that derive the ordering edges. -/
def orderNodes (nodes : List (Node N)) : List (Node N) :=
  let ordered := nodes.map (waitAfter nodes)
  ordered.foldl orderBefore ordered

------------------------------------------------------------
-- Ordering Edges
------------------------------------------------------------

/- The (earlier, later) pairs declared by `Before=` lists. -/
def beforePairs (nodes : List (Node N)) : List (N × N) :=
  nodes.flatMap (fun n => n.before.map (fun l => (n.name, l)))

/- All `Before=` pairs, as one node sees them. -/
def waitPairs (o : Node N) (ps : List (N × N)) : Node N :=
  ps.foldl (fun o p => waitBefore p.1 p.2 o) o

/- A node with its ordering edges among `nodes`. -/
def orderNode (nodes : List (Node N)) (n : Node N) : Node N :=
  waitPairs (waitAfter nodes n)
    (beforePairs (nodes.map (waitAfter nodes)))

theorem waitPairs_cons
    (o : Node N)
    (p : N × N)
    (ps : List (N × N)) :
    waitPairs o (p :: ps) =
      waitPairs (waitBefore p.1 p.2 o) ps :=
  rfl

/- One pair changes nothing but the edges. -/
private theorem waitBefore_same
    (name later : N)
    (o : Node N) :
    waitBefore name later o =
      { o with
        waitsFor := (waitBefore name later o).waitsFor } := by
  unfold waitBefore
  split <;> rfl

private theorem foldl_map_waitBefore
    (ps : List (N × N))
    (ns : List (Node N)) :
    ps.foldl
        (fun ns p => ns.map (waitBefore p.1 p.2)) ns =
      ns.map (fun o => waitPairs o ps) := by
  induction ps generalizing ns with
  | nil => simp [waitPairs]
  | cons p ps ih =>
      rw [List.foldl_cons, ih, List.map_map]
      rfl

/- Each node collects its own edges independently. -/
theorem orderNodes_eq
    (nodes : List (Node N)) :
    orderNodes nodes = nodes.map (orderNode nodes) := by
  have hFold :
      ∀ ordered ns : List (Node N),
        ordered.foldl orderBefore ns =
          ns.map (fun o => waitPairs o (beforePairs ordered)) := by
    intro ordered ns
    rw [← foldl_map_waitBefore, beforePairs, List.foldl_flatMap]
    congr 1
    funext ns n
    rw [orderBefore, List.foldl_map]
  rw [orderNodes, hFold, List.map_map]
  rfl

/- Collecting edges changes nothing but the edges. -/
theorem waitPairs_same
    (ps : List (N × N))
    (o : Node N) :
    waitPairs o ps =
      { o with waitsFor := (waitPairs o ps).waitsFor } := by
  refine List.foldlRecOn (motive := fun b : Node N =>
    b = { o with waitsFor := b.waitsFor }) ps _ rfl ?_
  intro b hb p _
  rw [waitBefore_same, hb]

variable {m : N}

theorem mem_waitPairs
    {ps : List (N × N)}
    {o : Node N} :
    m ∈ (waitPairs o ps).waitsFor ↔
      m ∈ o.waitsFor ∨ (m, o.name) ∈ ps := by
  induction ps generalizing o with
  | nil => simp [waitPairs]
  | cons p ps ih =>
      have hName : (waitBefore p.1 p.2 o).name = o.name := by
        rw [waitBefore_same]
      rw [waitPairs_cons, ih, hName, List.mem_cons, Prod.ext_iff]
      unfold waitBefore
      split
      · rename_i h
        rw [List.mem_append, List.mem_singleton]
        constructor
        · rintro ((h' | h') | h')
          · exact Or.inl h'
          · exact Or.inr (Or.inl ⟨h', h.1⟩)
          · exact Or.inr (Or.inr h')
        · rintro (h' | ⟨h', _⟩ | h')
          · exact Or.inl (Or.inl h')
          · exact Or.inl (Or.inr h')
          · exact Or.inr h'
      · rename_i h
        constructor
        · rintro (h' | h')
          · exact Or.inl h'
          · exact Or.inr (Or.inr h')
        · rintro (h' | ⟨h₁, h₂⟩ | h')
          · exact Or.inl h'
          · left
            by_contra hNot
            have hEq : m = p.1 := h₁
            exact h ⟨h₂, hEq ▸ hNot⟩
          · exact Or.inr h'

------------------------------------------------------------
-- Built Graphs
------------------------------------------------------------

/-
  Nodes as `addUnits` collects them: distinct names, each
  node made from a unit with a non-blank name.
-/
structure Collected (nodes : List (Node N)) : Prop where
  nodup : (nodes.map Node.name).Nodup
  fromUnit :
    ∀ n ∈ nodes, ∃ u, n = newNode u ∧
      normalizeName u.name ≠ UnitNames.empty

variable {i : Nat}
variable {nodes nodes' : List (Node N)}

theorem collected_addUnit
    {u : Option (UnitFile N)}
    (hNodes : Collected nodes)
    (h : addUnit i nodes u = .ok nodes') :
    Collected nodes' := by
  cases u with
  | none => cases h
  | some u =>
      simp only [addUnit] at h
      split at h
      · cases h
      rename_i hBlank
      split at h
      · cases h
      rename_i hFresh
      cases h
      constructor
      · rw [List.map_append, List.map_singleton,
          ← List.concat_eq_append]
        exact hNodes.nodup.concat hFresh
      · intro n hn
        rcases List.mem_append.mp hn with hOld | hNew
        · exact hNodes.fromUnit n hOld
        · exact ⟨u, List.mem_singleton.mp hNew, hBlank⟩

variable {us : List (Option (UnitFile N))}

theorem collected_addUnits
    (hNodes : Collected nodes)
    (h : addUnits us i nodes = .ok nodes') :
    Collected nodes' := by
  induction us generalizing i nodes with
  | nil =>
      cases h
      exact hNodes
  | cons u us ih =>
      simp only [addUnits] at h
      split at h
      · cases h
      · rename_i hUnit
        exact ih (collected_addUnit hNodes hUnit) h

theorem collected_nil : Collected ([] : List (Node N)) :=
  ⟨List.nodup_nil, by simp⟩

private theorem wellNamed_newNode
    {u : UnitFile N}
    (h : normalizeName u.name ≠ UnitNames.empty) :
    (newNode u).WellNamed where
  name := ⟨UnitNames.normalizeName_idem _, h⟩
  requires _ := normal_of_mem_uniqueStable
  wants _ := normal_of_mem_uniqueStable
  bindsTo _ := normal_of_mem_uniqueStable
  partOf _ := normal_of_mem_uniqueStable
  after _ := normal_of_mem_uniqueStable
  before _ := normal_of_mem_uniqueStable

section

variable (nodes : List (Node N))
variable (n : Node N)

theorem orderNode_same :
    orderNode nodes n =
      { n with waitsFor := (orderNode nodes n).waitsFor } := by
  unfold orderNode
  rw [waitPairs_same]
  rfl

@[simp] theorem orderNode_name :
    (orderNode nodes n).name = n.name := by
  rw [orderNode_same]

@[simp] theorem orderNode_after :
    (orderNode nodes n).after = n.after := by
  rw [orderNode_same]

@[simp] theorem orderNode_before :
    (orderNode nodes n).before = n.before := by
  rw [orderNode_same]

theorem map_name_orderNodes :
    (orderNodes nodes).map Node.name = nodes.map Node.name := by
  rw [orderNodes_eq, List.map_map]
  apply List.map_congr_left
  intro n _
  exact orderNode_name nodes n

end

/- Who a node waits for, in terms of the declared lists. -/
theorem mem_orderNode
    {nodes : List (Node N)}
    (hNodes : Collected nodes)
    {n : Node N}
    (hn : n ∈ nodes) :
    m ∈ (orderNode nodes n).waitsFor ↔
      m ∈ nodes.map Node.name ∧ m ∈ n.after ∨
        ∃ k ∈ nodes, k.name = m ∧ n.name ∈ k.before := by
  have hAfter :
      m ∈ (waitAfter nodes n).waitsFor ↔
        m ∈ nodes.map Node.name ∧ m ∈ n.after := by
    rcases hNodes.fromUnit n hn with ⟨u, rfl, hBlank⟩
    have hNormal :
        ∀ x ∈ (newNode u).after.filter
            (fun m => m ∈ nodes.map Node.name), Normal x := by
      intro x hx
      exact (wellNamed_newNode hBlank).after x
        (List.mem_of_mem_filter hx)
    rw [waitAfter, mem_uniqueStable_of_normal hNormal,
      List.mem_filter, decide_eq_true_iff, and_comm]
  have hPairs :
      (m, n.name) ∈ beforePairs (nodes.map (waitAfter nodes)) ↔
        ∃ k ∈ nodes, k.name = m ∧ n.name ∈ k.before := by
    unfold beforePairs
    simp only [List.mem_flatMap, List.mem_map, Prod.mk.injEq]
    constructor
    · rintro ⟨_, ⟨k, hk, rfl⟩, l, hl, hName, rfl⟩
      exact ⟨k, hk, hName, hl⟩
    · rintro ⟨k, hk, hName, hl⟩
      exact ⟨_, ⟨k, hk, rfl⟩, n.name, hl, hName, rfl⟩
  have hName : (waitAfter nodes n).name = n.name := rfl
  rw [orderNode, mem_waitPairs, hAfter, hName, hPairs]

/- The graph of collected nodes. -/
def graphOf
    (nodes : List (Node N))
    (hNodes : Collected nodes) :
    Graph N where
  nodes := orderNodes nodes
  nodup := by
    rw [map_name_orderNodes]
    exact hNodes.nodup
  wellNamed := by
    intro n hn
    rw [orderNodes_eq] at hn
    rcases List.mem_map.mp hn with ⟨k, hk, rfl⟩
    rcases hNodes.fromUnit k hk with ⟨u, rfl, hBlank⟩
    have hWell := wellNamed_newNode hBlank
    rw [orderNode_same]
    exact
      { hWell with }
  waits_loaded := by
    intro n hn m hm
    rw [orderNodes_eq] at hn
    rcases List.mem_map.mp hn with ⟨k, hk, rfl⟩
    rw [map_name_orderNodes]
    rcases (mem_orderNode hNodes hk).mp hm with h | h
    · exact h.1
    · rcases h with ⟨l, hl, hName, _⟩
      exact List.mem_map.mpr ⟨l, hl, hName⟩

/- The dependency graph of a list of parsed units. -/
def build
    (units : List (Option (UnitFile N))) :
    Except (BuildError N) (Graph N) :=
  match h : addUnits units 0 [] with
  | .error e => .error e
  | .ok nodes =>
      .ok (graphOf nodes (collected_addUnits collected_nil h))

variable {units : List (Option (UnitFile N))}
variable {g : Graph N}

theorem build_ok
    (h : build units = .ok g) :
    ∃ nodes, ∃ hNodes : Collected nodes,
      addUnits units 0 [] = .ok nodes ∧
        g = graphOf nodes hNodes := by
  unfold build at h
  split at h
  · cases h
  · rename_i nodes hAdd
    cases h
    exact ⟨nodes, _, hAdd, rfl⟩

/-
  A unit of a built graph waits for the loaded units that it
  lists in `After=` and for those that list it in `Before=`.
-/
theorem build_waitsFor
    (h : build units = .ok g)
    {n : Node N}
    (hn : n ∈ g.nodes) :
    m ∈ n.waitsFor ↔
      g.Loaded m ∧ m ∈ n.after ∨
        ∃ k ∈ g.nodes, k.name = m ∧ n.name ∈ k.before := by
  rcases build_ok h with ⟨nodes, hNodes, _, rfl⟩
  have hMap : (graphOf nodes hNodes).nodes = orderNodes nodes :=
    rfl
  rw [hMap, orderNodes_eq] at hn
  rcases List.mem_map.mp hn with ⟨o, ho, rfl⟩
  have hLoaded :
      (graphOf nodes hNodes).Loaded m ↔
        m ∈ nodes.map Node.name := by
    rw [Graph.Loaded, hMap, map_name_orderNodes]
  have hBefore :
      (∃ k ∈ (graphOf nodes hNodes).nodes,
          k.name = m ∧ o.name ∈ k.before) ↔
        ∃ k ∈ nodes, k.name = m ∧ o.name ∈ k.before := by
    simp [hMap, orderNodes_eq]
  rw [mem_orderNode hNodes ho, hLoaded, orderNode_name,
    orderNode_after, hBefore]

------------------------------------------------------------
-- The Units Of A Graph
------------------------------------------------------------

/- Units that can be built together. -/
structure Buildable (units : List (Option (UnitFile N))) : Prop where
  named :
    ∀ o ∈ units, ∃ u, o = some u ∧
      normalizeName u.name ≠ UnitNames.empty
  distinct :
    (units.filterMap
      (Option.map (fun u => normalizeName u.name))).Nodup

private theorem addUnits_eq
    (h : addUnits us i nodes = .ok nodes') :
    (∀ o ∈ us, ∃ u, o = some u) ∧
      nodes' = nodes ++ (us.filterMap id).map newNode := by
  induction us generalizing i nodes with
  | nil =>
      cases h
      exact ⟨(fun o ho => nomatch ho), (List.append_nil _).symm⟩
  | cons o us ih =>
      cases o with
      | none => cases h
      | some u =>
          simp only [addUnits, addUnit] at h
          split at h
          · cases h
          rename_i hAdd
          split at hAdd
          · cases hAdd
          split at hAdd
          · cases hAdd
          cases hAdd
          rcases ih h with ⟨hSome, hNodes⟩
          refine ⟨?_, ?_⟩
          · intro o ho
            rcases List.mem_cons.mp ho with rfl | ho
            · exact ⟨u, rfl⟩
            · exact hSome o ho
          · rw [hNodes]
            simp

private theorem addUnits_of_distinct
    (hNamed :
      ∀ o ∈ us, ∃ u, o = some u ∧
        normalizeName u.name ≠ UnitNames.empty)
    {nodes : List (Node N)}
    (hDistinct :
      (nodes.map Node.name ++
        us.filterMap
          (Option.map (fun u => normalizeName u.name))).Nodup) :
    ∃ nodes', addUnits us i nodes = .ok nodes' := by
  induction us generalizing i nodes with
  | nil => exact ⟨nodes, rfl⟩
  | cons o us ih =>
      rcases hNamed o List.mem_cons_self with ⟨u, rfl, hBlank⟩
      have hFresh : normalizeName u.name ∉ nodes.map Node.name := by
        intro hOld
        exact List.disjoint_of_nodup_append hDistinct hOld (by simp)
      simp only [addUnits, addUnit, if_neg hBlank, if_neg hFresh]
      apply ih (fun o ho => hNamed o (List.mem_cons_of_mem _ ho))
      simpa [newNode] using hDistinct

/- A list can be built exactly if its units have distinct names. -/
theorem build_ok_iff
    {units : List (Option (UnitFile N))} :
    (∃ g, build units = .ok g) ↔ Buildable units := by
  constructor
  · rintro ⟨g, h⟩
    rcases build_ok h with ⟨nodes, hNodes, hAdd, _⟩
    rcases addUnits_eq hAdd with ⟨hSome, hEq⟩
    rw [List.nil_append] at hEq
    constructor
    · intro o ho
      rcases hSome o ho with ⟨u, rfl⟩
      have hMem : newNode u ∈ nodes := by
        rw [hEq]
        exact List.mem_map_of_mem (by simpa using ho)
      rcases hNodes.fromUnit _ hMem with ⟨v, hSame, hBlank⟩
      refine ⟨u, rfl, ?_⟩
      have hName := congrArg Node.name hSame
      exact fun hEmpty => hBlank (hName.symm.trans hEmpty)
    · have hNodup := hNodes.nodup
      rw [hEq, List.map_map] at hNodup
      have hNames :
          units.filterMap (Option.map (fun u => normalizeName u.name)) =
            (units.filterMap id).map (Node.name ∘ newNode) := by
        rw [List.map_filterMap]
        rfl
      rw [hNames]
      exact hNodup
  · intro h
    have hAll : ∃ nodes, addUnits units 0 [] = .ok nodes :=
      addUnits_of_distinct h.named h.distinct
    rcases hAll with ⟨nodes, hAdd⟩
    unfold build
    split
    · rename_i hError
      rw [hAdd] at hError
      cases hError
    · exact ⟨_, rfl⟩

/- The nodes of a built graph are its units. -/
theorem build_nodes
    (h : build units = .ok g) :
    (∀ n ∈ g.nodes, some n.unit ∈ units ∧
      n = { newNode n.unit with waitsFor := n.waitsFor }) ∧
    ∀ u, some u ∈ units → ∃ n ∈ g.nodes, n.unit = u := by
  rcases build_ok h with ⟨nodes, hNodes, hAdd, rfl⟩
  have hEq := (addUnits_eq hAdd).2
  rw [List.nil_append] at hEq
  have hMap :
      (graphOf nodes hNodes).nodes = nodes.map (orderNode nodes) :=
    orderNodes_eq nodes
  rw [hMap]
  constructor
  · intro n hn
    rcases List.mem_map.mp hn with ⟨o, ho, rfl⟩
    rw [hEq] at ho
    rcases List.mem_map.mp ho with ⟨u, hu, rfl⟩
    rw [orderNode_same]
    exact ⟨by simpa [newNode] using hu, rfl⟩
  · intro u hu
    refine ⟨orderNode nodes (newNode u), List.mem_map_of_mem ?_, ?_⟩
    · rw [hEq]
      exact List.mem_map_of_mem (by simpa using hu)
    · rw [orderNode_same]
      rfl

end Core

end Winunitd
