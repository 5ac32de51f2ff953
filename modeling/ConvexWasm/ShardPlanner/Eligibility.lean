import ConvexWasm.ShardPlanner.WellFormed

/-!
# Components that may be shared

A component may be shared if it and everything that it depends on are candidates.
The planner asks this of one component after the other and keeps the answers.  As
components depend on each other in no cycle, every question has an answer.
-/

namespace ConvexWasm.ShardPlanner

open Fallible List Relation

section Answers

variable (policy : Policy) (components : List Component)

/-- The answers that are kept in the components, by their identities. -/
abbrev Answers := String → Option Bool

/-- `every`, which stops at the first dependency that may not be shared. -/
def everyDependency (resolve : Answers → Component → Except String (Bool × Answers)) :
    List String → Answers → Except String (Bool × Answers)
  | [], answers => .ok (true, answers)
  | dependencySha256 :: rest, answers =>
    match components.find? (·.componentSha256 = dependencySha256) with
    | none => fail "dependency component is undefined"
    | some dependency => do
      let (eligible, answers) ← resolve answers dependency
      if eligible then everyDependency resolve rest answers else return (false, answers)

/-- `resolveSharedEligibility` with the answers that it finds and keeps. -/
def resolveKept : ℕ → List String → Answers → Component → Except String (Bool × Answers)
  | 0, _, _, _ => fail "component dependency graph contains a cycle after SCC collapse"
  | fuel + 1, resolving, answers, component =>
    match answers component.componentSha256 with
    | some eligible => .ok (eligible, answers)
    | none =>
      if sharedCandidate policy component = false then
        .ok (false, Function.update answers component.componentSha256 (some false))
      else if component.componentSha256 ∈ resolving then
        fail "component dependency graph contains a cycle after SCC collapse"
      else do
        let (eligible, answers) ← everyDependency components
          (resolveKept fuel (component.componentSha256 :: resolving))
          component.dependencyComponentSha256s answers
        return (eligible,
          Function.update answers component.componentSha256 (some eligible))

/-- The loop over all components. -/
def resolveAll : List Component → Answers → Except String Answers
  | [], answers => .ok answers
  | component :: rest, answers => do
    let (_, answers) ← resolveKept policy components (components.length + 1) [] answers component
    resolveAll rest answers

end Answers

section Layers

def DependsOn (components : List Component) (first second : Component) : Prop :=
  second ∈ components ∧ second.componentSha256 ∈ first.dependencyComponentSha256s

/-- The component and everything that it depends on are candidates. -/
def AllCandidates (policy : Policy) (components : List Component) (component : Component) : Prop :=
  ∀ other, ReflTransGen (DependsOn components) component other →
    sharedCandidate policy other = true

/-- Components with identities of their own that depend on known components, in
no cycle. -/
structure Layered (components : List Component) : Prop where
  distinct : (components.map (·.componentSha256)).Nodup
  known : ∀ component ∈ components, ∀ sha256 ∈ component.dependencyComponentSha256s,
    ∃ other ∈ components, other.componentSha256 = sha256
  acyclic : ∀ component, ¬TransGen (DependsOn components) component component

/-- The components that wait for the answer are above the one in question. -/
structure Waiting (components : List Component) (resolving : List String)
    (component : Component) : Prop where
  distinct : resolving.Nodup
  above : ∀ sha256 ∈ resolving, ∃ waiting ∈ components, waiting.componentSha256 = sha256 ∧
    TransGen (DependsOn components) waiting component

/-- What is kept is right. -/
def Right (policy : Policy) (components : List Component) (answers : Answers) : Prop :=
  ∀ component ∈ components, ∀ eligible, answers component.componentSha256 = some eligible →
    (eligible = true ↔ AllCandidates policy components component)

def Keeps (before after : Answers) : Prop :=
  ∀ sha256 eligible, before sha256 = some eligible → after sha256 = some eligible

variable {policy : Policy} {components : List Component} {component dependency : Component}
  {resolving sha256s : List String} {sha256 : String} {answers : Answers} {fuel : ℕ}
  {eligible : Bool}

theorem allCandidates_iff :
    AllCandidates policy components component ↔ sharedCandidate policy component = true ∧
      ∀ dependency, DependsOn components component dependency →
        AllCandidates policy components dependency := by
  constructor
  · exact fun hall => ⟨hall component .refl,
      fun dependency hdepends other hreaches => hall other (.head hdepends hreaches)⟩
  · rintro ⟨hcandidate, hall⟩ other hreaches
    cases hreaches using ReflTransGen.head_induction_on with
    | refl => exact hcandidate
    | head hdepends hrest => exact hall _ hdepends other hrest

variable (hlayered : Layered components)
include hlayered

section

variable (hcomponent : component ∈ components)
include hcomponent

theorem Layered.find?_eq :
    components.find? (·.componentSha256 = component.componentSha256) = some component :=
  find?_key_eq hlayered.distinct hcomponent

theorem Layered.eq_of_sha256 {other : Component}
    (hother : other ∈ components) (hsame : other.componentSha256 = component.componentSha256) :
    other = component := by
  have hfound := hlayered.find?_eq hother
  rw [hsame, hlayered.find?_eq hcomponent] at hfound
  exact (Option.some.inj hfound).symm

section

variable (hwaiting : Waiting components resolving component)
include hwaiting

theorem Layered.not_waiting :
    component.componentSha256 ∉ resolving := by
  intro hmem
  obtain ⟨waiting, hother, hsame, habove⟩ := hwaiting.above _ hmem
  rw [hlayered.eq_of_sha256 hcomponent hother hsame] at habove
  exact hlayered.acyclic component habove

theorem Layered.waiting_cons (hdepends : DependsOn components component dependency) :
    Waiting components (component.componentSha256 :: resolving) dependency where
  distinct := nodup_cons.mpr ⟨hlayered.not_waiting hcomponent hwaiting, hwaiting.distinct⟩
  above := by
    intro sha256 hmem
    obtain rfl | hmem := mem_cons.mp hmem
    · exact ⟨component, hcomponent, rfl, .single hdepends⟩
    · obtain ⟨waiting, hother, hsame, habove⟩ := hwaiting.above _ hmem
      exact ⟨waiting, hother, hsame, habove.tail hdepends⟩

/-- There are no more waiting components than components. -/
theorem Layered.length_lt : resolving.length < components.length := by
  have hnodup : (component.componentSha256 :: resolving).Nodup :=
    nodup_cons.mpr ⟨hlayered.not_waiting hcomponent hwaiting, hwaiting.distinct⟩
  have hsubset : component.componentSha256 :: resolving ⊆ components.map (·.componentSha256) := by
    intro sha256 hmem
    obtain rfl | hmem := mem_cons.mp hmem
    · exact mem_map_of_mem hcomponent
    · obtain ⟨waiting, hother, rfl, -⟩ := hwaiting.above _ hmem
      exact mem_map_of_mem hother
  simpa using (subperm_of_subset hnodup hsubset).length_le

end

end

theorem Layered.update_right (hright : Right policy components answers)
    (hcomponent : component ∈ components)
    (heligible : eligible = true ↔ AllCandidates policy components component) :
    Right policy components
      (Function.update answers component.componentSha256 (some eligible)) := by
  intro other hother answer hanswer
  by_cases hsame : other.componentSha256 = component.componentSha256
  · rw [hsame, Function.update_self] at hanswer
    cases hanswer
    rwa [hlayered.eq_of_sha256 hcomponent hother hsame]
  · rw [Function.update_of_ne hsame] at hanswer
    exact hright other hother answer hanswer

/-- Each dependency is answered, as far as they are asked for. -/
theorem Layered.everyDependency_spec
    {resolve : Answers → Component → Except String (Bool × Answers)}
    (hcomponent : component ∈ components)
    (hresolve : ∀ dependency, DependsOn components component dependency →
      ∀ answers, Right policy components answers →
        ∃ eligible after, resolve answers dependency = .ok (eligible, after) ∧
          (eligible = true ↔ AllCandidates policy components dependency) ∧
          Right policy components after ∧ Keeps answers after)
    (hsubset : sha256s ⊆ component.dependencyComponentSha256s)
    (hright : Right policy components answers) :
    ∃ eligible after, everyDependency components resolve sha256s answers = .ok (eligible, after) ∧
      (eligible = true ↔ ∀ dependency ∈ components, dependency.componentSha256 ∈ sha256s →
        AllCandidates policy components dependency) ∧
      Right policy components after ∧ Keeps answers after := by
  induction sha256s generalizing answers with
  | nil => exact ⟨true, answers, rfl, by simp, hright, fun _ _ hkept => hkept⟩
  | cons sha256 rest ih =>
    rw [cons_subset] at hsubset
    obtain ⟨dependency, hdependency, rfl⟩ := hlayered.known component hcomponent _ hsubset.1
    obtain ⟨eligible, after, hok, heligible, hafter, hkeeps⟩ :=
      hresolve dependency ⟨hdependency, hsubset.1⟩ answers hright
    rw [everyDependency, hlayered.find?_eq hdependency]
    simp only [hok, ok_bind]
    cases eligible with
    | false =>
      refine ⟨false, after, rfl, iff_of_false Bool.false_ne_true ?_, hafter, hkeeps⟩
      exact fun hall => Bool.false_ne_true
        (heligible.mpr (hall dependency hdependency mem_cons_self))
    | true =>
      obtain ⟨all, last, hlast, hall, hlastRight, hlastKeeps⟩ := ih hsubset.2 hafter
      refine ⟨all, last, hlast, hall.trans ?_, hlastRight,
        fun _ _ hkept => hlastKeeps _ _ (hkeeps _ _ hkept)⟩
      constructor
      · intro hrest other hother hmem
        obtain hsame | hmem := mem_cons.mp hmem
        · rw [hlayered.eq_of_sha256 hdependency hother hsame]
          exact heligible.mp rfl
        · exact hrest other hother hmem
      · exact fun hevery other hother hmem => hevery other hother (mem_cons_of_mem _ hmem)

/-- Each question is answered, without a cycle and within the fuel. -/
theorem Layered.resolveKept_spec (hcomponent : component ∈ components)
    (hwaiting : Waiting components resolving component)
    (hfuel : components.length < fuel + resolving.length)
    (hright : Right policy components answers) :
    ∃ eligible after,
      resolveKept policy components fuel resolving answers component = .ok (eligible, after) ∧
        (eligible = true ↔ AllCandidates policy components component) ∧
        Right policy components after ∧ Keeps answers after ∧
        after component.componentSha256 = some eligible := by
  induction fuel generalizing resolving answers component with
  | zero =>
    have hlength := hlayered.length_lt hcomponent hwaiting
    omega
  | succ fuel ih =>
    rw [resolveKept]
    cases hanswer : answers component.componentSha256 with
    | some eligible =>
      exact ⟨eligible, answers, rfl, hright component hcomponent eligible hanswer, hright,
        fun _ _ hkept => hkept, hanswer⟩
    | none =>
      -- What is written now was not kept before.
      have hkeeps : ∀ {after : Answers} {eligible : Bool}, Keeps answers after →
          Keeps answers (Function.update after component.componentSha256 (some eligible)) := by
        intro after eligible hkeeps sha256 kept hkept
        have hne : sha256 ≠ component.componentSha256 := by
          rintro rfl
          rw [hanswer] at hkept
          cases hkept
        rw [Function.update_of_ne hne]
        exact hkeeps sha256 kept hkept
      cases hcandidate : sharedCandidate policy component with
      | false =>
        have heligible : false = true ↔ AllCandidates policy components component := by
          rw [allCandidates_iff, hcandidate]
          simp
        exact ⟨false, _, rfl, heligible, hlayered.update_right hright hcomponent heligible,
          hkeeps fun _ _ hkept => hkept, Function.update_self ..⟩
      | true =>
        have hresolve : ∀ dependency, DependsOn components component dependency →
            ∀ answers, Right policy components answers → ∃ eligible after,
              resolveKept policy components fuel (component.componentSha256 :: resolving) answers
                  dependency = .ok (eligible, after) ∧
                (eligible = true ↔ AllCandidates policy components dependency) ∧
                Right policy components after ∧ Keeps answers after := by
          intro dependency hdepends answers hright
          obtain ⟨eligible, after, hok, heligible, hafter, hkept, -⟩ := ih hdepends.1
            (hlayered.waiting_cons hcomponent hwaiting hdepends)
            (by rw [length_cons]; omega) hright
          exact ⟨eligible, after, hok, heligible, hafter, hkept⟩
        obtain ⟨eligible, after, hok, hall, hafter, hkept⟩ :=
          hlayered.everyDependency_spec hcomponent hresolve (Subset.refl _) hright
        have heligible : eligible = true ↔ AllCandidates policy components component := by
          rw [allCandidates_iff, hcandidate, hall]
          simp [DependsOn]
        refine ⟨eligible, _, ?_, heligible, hlayered.update_right hafter hcomponent heligible,
          hkeeps hkept, Function.update_self ..⟩
        rw [if_neg (by simp), if_neg (hlayered.not_waiting hcomponent hwaiting), hok]
        rfl

/-- The loop answers for every component. -/
theorem Layered.resolveAll_spec {rest : List Component} (hsubset : rest ⊆ components)
    (hright : Right policy components answers) :
    ∃ after, resolveAll policy components rest answers = .ok after ∧
      Right policy components after ∧ Keeps answers after ∧
      ∀ component ∈ rest, ∃ eligible, after component.componentSha256 = some eligible := by
  induction rest generalizing answers with
  | nil => exact ⟨answers, rfl, hright, fun _ _ hkept => hkept, nofun⟩
  | cons component rest ih =>
    rw [cons_subset] at hsubset
    obtain ⟨eligible, after, hok, -, hafter, hkeeps, hown⟩ := hlayered.resolveKept_spec
      hsubset.1 ⟨nodup_nil, nofun⟩ (Nat.lt_succ_self components.length) hright
    obtain ⟨last, hlast, hlastRight, hlastKeeps, hrest⟩ := ih hsubset.2 hafter
    refine ⟨last, ?_, hlastRight, fun _ _ hkept => hlastKeeps _ _ (hkeeps _ _ hkept), ?_⟩
    · rw [resolveAll, hok]
      exact hlast
    · intro other hother
      obtain rfl | hother := mem_cons.mp hother
      · exact ⟨eligible, hlastKeeps _ _ hown⟩
      · exact hrest other hother

omit hlayered in
theorem allM_spec {check : String → Except String Bool} {holds : String → Prop}
    (hcheck : ∀ sha256 ∈ sha256s, ∃ found, check sha256 = .ok found ∧ (found = true ↔ holds sha256)) :
    ∃ all, sha256s.allM check = .ok all ∧ (all = true ↔ ∀ sha256 ∈ sha256s, holds sha256) := by
  induction sha256s with
  | nil => exact ⟨true, rfl, by simp⟩
  | cons sha256 rest ih =>
    rw [forall_mem_cons] at hcheck
    obtain ⟨⟨found, hfound, hholds⟩, hrest⟩ := hcheck
    obtain ⟨all, hall, hevery⟩ := ih hrest
    rw [forall_mem_cons, ← hholds, ← hevery]
    cases found with
    | false => exact ⟨false, by rw [allM, hfound]; rfl, by simp⟩
    | true => exact ⟨all, by rw [allM, hfound]; exact hall, by simp⟩

/-- The same without the answers that are kept. -/
theorem Layered.resolveSharedEligibility_spec (hcomponent : component ∈ components)
    (hwaiting : Waiting components resolving component)
    (hfuel : components.length < fuel + resolving.length) :
    ∃ eligible, resolveSharedEligibility policy components fuel resolving component =
        .ok eligible ∧ (eligible = true ↔ AllCandidates policy components component) := by
  induction fuel generalizing resolving component with
  | zero =>
    have hlength := hlayered.length_lt hcomponent hwaiting
    omega
  | succ fuel ih =>
    rw [resolveSharedEligibility, allCandidates_iff]
    cases hcandidate : sharedCandidate policy component with
    | false => exact ⟨false, rfl, by simp⟩
    | true =>
      rw [if_neg (by simp), if_neg (hlayered.not_waiting hcomponent hwaiting)]
      have hdepends : (true = true ∧ ∀ dependency, DependsOn components component dependency →
          AllCandidates policy components dependency) ↔
          ∀ sha256 ∈ component.dependencyComponentSha256s, ∀ dependency ∈ components,
            dependency.componentSha256 = sha256 → AllCandidates policy components dependency := by
        constructor
        · rintro ⟨-, hall⟩ sha256 hsha256 dependency hdependency rfl
          exact hall dependency ⟨hdependency, hsha256⟩
        · exact fun hall => ⟨rfl, fun dependency hdepends =>
            hall _ hdepends.2 dependency hdepends.1 rfl⟩
      rw [hdepends]
      apply allM_spec
      intro sha256 hsha256
      obtain ⟨dependency, hdependency, rfl⟩ := hlayered.known component hcomponent _ hsha256
      obtain ⟨eligible, hok, heligible⟩ := ih hdependency
        (hlayered.waiting_cons hcomponent hwaiting ⟨hdependency, hsha256⟩)
        (by rw [length_cons]; omega)
      rw [hlayered.find?_eq hdependency]
      refine ⟨eligible, hok, heligible.trans ⟨fun hown other hother hsame => ?_, fun hsame =>
        hsame dependency hdependency rfl⟩⟩
      rwa [hlayered.eq_of_sha256 hdependency hother hsame]

end Layers

section Units

variable {fingerprint : Payload → String} {units : List AuthenticatedLogicalUnit}
  {policy : Policy} {components : List Component} {component : Component} {codes : List String}

/-- No two classes have one digest. -/
def DistinctDigests (fingerprint : Payload → String) (units : List AuthenticatedLogicalUnit) :
    Prop :=
  ((stronglyConnectedComponents units).map fun codes =>
    (componentOf fingerprint units codes).componentSha256).Nodup

variable (hadmitted : Admitted units) (hdigests : DistinctDigests fingerprint units)
include hadmitted hdigests

/-- A class depends on another as a unit of it does. -/
theorem exists_dependency (hdepends : DependsOn (connectedComponents fingerprint units)
      (connectedComponent fingerprint units codes) component) :
    ∃ codes' ∈ stronglyConnectedComponents units,
      connectedComponent fingerprint units codes' = component ∧
      ∃ code ∈ codes, ∃ dependency ∈ codes', dependency ∈ dependenciesOf units code ∧
        dependency ∉ codes := by
  obtain ⟨hmem, hsha256⟩ := hdepends
  rw [connectedComponents_eq] at hmem
  obtain ⟨codes', hcodes', rfl⟩ := mem_map.mp hmem
  obtain ⟨code, hcode, dependency, hdependency, houtside, other, hother, hinside, hsame⟩ :=
    (mem_dependencyComponentSha256s hadmitted).mp hsha256
  obtain rfl := inj_on_of_nodup_map hdigests hother hcodes' hsame
  exact ⟨other, hother, rfl, code, hcode, dependency, hinside, hdependency, houtside⟩

/-- Every unit of a class reaches every unit of those that the class depends on. -/
theorem reaches_of_dependsOn (hcodes : codes ∈ stronglyConnectedComponents units)
    (hreaches : ReflTransGen (DependsOn (connectedComponents fingerprint units))
      (connectedComponent fingerprint units codes) component) :
    ∃ codes' ∈ stronglyConnectedComponents units,
      connectedComponent fingerprint units codes' = component ∧
      ∀ code ∈ codes, ∀ code' ∈ codes',
        StrongComponents.Reaches (dependenciesOf units) code code' := by
  have hwithin : ∀ codes ∈ stronglyConnectedComponents units, ∀ code ∈ codes, ∀ code' ∈ codes,
      StrongComponents.Reaches (dependenciesOf units) code code' :=
    fun codes hcodes code hcode code' hcode' =>
      ((hadmitted.classes.strong codes hcodes code hcode code').mp hcode').1
  induction hreaches with
  | refl => exact ⟨codes, hcodes, rfl, hwithin codes hcodes⟩
  | tail _ hdepends ih =>
    obtain ⟨middle, hmiddle, rfl, hfirst⟩ := ih
    obtain ⟨last, hlast, rfl, code', hcode', dependency, hinside, hdependency, -⟩ :=
      exists_dependency hadmitted hdigests hdepends
    refine ⟨last, hlast, rfl, fun code hcode target htarget => ?_⟩
    exact ((hfirst code hcode code' hcode').tail hdependency).trans
      (hwithin last hlast dependency hinside target htarget)

theorem Admitted.layered : Layered (connectedComponents fingerprint units) where
  distinct := by
    rw [connectedComponents_eq, List.map_map]
    exact hdigests
  known component hcomponent sha256 hsha256 := by
    rw [connectedComponents_eq] at hcomponent ⊢
    obtain ⟨codes, hcodes, rfl⟩ := mem_map.mp hcomponent
    obtain ⟨_, _, _, _, _, other, hother, _, hsame⟩ :=
      (mem_dependencyComponentSha256s hadmitted).mp hsha256
    exact ⟨_, mem_map_of_mem hother, hsame⟩
  acyclic component hcycle := by
    obtain ⟨last, -, hlast⟩ := TransGen.tail'_iff.mp hcycle
    have hmem := hlast.1
    rw [connectedComponents_eq] at hmem
    obtain ⟨codes, hcodes, rfl⟩ := mem_map.mp hmem
    obtain ⟨next, hnext, hback⟩ := TransGen.head'_iff.mp hcycle
    obtain ⟨codes', hcodes', rfl, code, hcode, dependency, hinside, hdependency, houtside⟩ :=
      exists_dependency hadmitted hdigests hnext
    obtain ⟨codes'', _, hsame, hreaches⟩ :=
      reaches_of_dependsOn hadmitted hdigests hcodes' hback
    obtain rfl : codes'' = codes := congrArg Component.codeIdentitySha256s hsame
    exact houtside ((hadmitted.classes.strong codes'' hcodes code hcode dependency).mpr
      ⟨.single hdependency, hreaches dependency hinside code hcode⟩)

omit hadmitted hdigests in
/-- It does not matter for the candidates whether the answers are known. -/
theorem BuiltFrom.allCandidates_iff (hbuilt : BuiltFrom fingerprint units policy components) :
    AllCandidates policy components component ↔
      AllCandidates policy (connectedComponents fingerprint units) component.unresolved := by
  constructor
  · intro hall other hreaches
    have hlifted : ∃ resolved, resolved.unresolved = other ∧
        ReflTransGen (DependsOn components) component resolved := by
      induction hreaches with
      | refl => exact ⟨component, rfl, .refl⟩
      | tail _ hdepends ih =>
        obtain ⟨resolved, rfl, hbefore⟩ := ih
        obtain ⟨next, hnext, rfl⟩ := mem_map.mp (hbuilt.perm.mem_iff.mpr hdepends.1)
        exact ⟨next, rfl, hbefore.tail ⟨hnext, hdepends.2⟩⟩
    obtain ⟨resolved, rfl, hresolved⟩ := hlifted
    exact hall resolved hresolved
  · intro hall other hreaches
    refine hall other.unresolved (hreaches.lift Component.unresolved ?_)
    exact fun first second hdepends =>
      ⟨hbuilt.perm.mem_iff.mp (mem_map_of_mem hdepends.1), hdepends.2⟩

/-- The components are the classes of units that depend on each other, and each
is marked if it and all that it depends on are candidates; the cycle that is
looked for is never found. -/
theorem buildComponents_sharedEligible :
    StrongComponents.Components (dependenciesOf units)
        (sortStrings (units.map (·.codeIdentitySha256))) (stronglyConnectedComponents units) ∧
      (∃ resolved,
        resolveEligibility policy (connectedComponents fingerprint units) = .ok resolved) ∧
      ∃ answers, resolveAll policy (connectedComponents fingerprint units)
          (connectedComponents fingerprint units) (fun _ => none) = .ok answers ∧
        ∀ components, buildComponents fingerprint units policy = .ok components →
          ∀ component ∈ components,
            (component.sharedEligible = true ↔ AllCandidates policy components component) ∧
              answers component.componentSha256 = some component.sharedEligible := by
  have hlayered := hadmitted.layered hdigests
  have hresolve : ∀ component ∈ connectedComponents fingerprint units, ∃ eligible,
      resolveSharedEligibility policy (connectedComponents fingerprint units)
          ((connectedComponents fingerprint units).length + 1) [] component = .ok eligible ∧
        (eligible = true ↔ AllCandidates policy (connectedComponents fingerprint units) component) :=
    fun component hcomponent => hlayered.resolveSharedEligibility_spec hcomponent
      ⟨nodup_nil, nofun⟩ (Nat.lt_succ_self _)
  have hnothing : Right policy (connectedComponents fingerprint units) fun _ => none :=
    fun _ _ _ => nofun
  obtain ⟨answers, hanswers, hright, -, hall⟩ :=
    hlayered.resolveAll_spec (Subset.refl _) hnothing
  refine ⟨hadmitted.classes, ?_, answers, hanswers, ?_⟩
  · apply exists_mapM_ok_iff.mpr
    intro component hcomponent
    obtain ⟨eligible, hok, -⟩ := hresolve component hcomponent
    rw [hok]
    exact ⟨_, rfl⟩
  · intro components hok component hcomponent
    have hbuilt := buildComponents_eq_ok hok
    have hmem := hbuilt.perm.mem_iff.mp (mem_map_of_mem hcomponent)
    obtain ⟨eligible, heligible, hmeaning⟩ := hresolve _ hmem
    rw [hbuilt.eligible component hcomponent] at heligible
    obtain rfl := Except.ok.inj heligible
    obtain ⟨kept, hkept⟩ := hall _ hmem
    have hsame : kept = component.sharedEligible :=
      Bool.eq_iff_iff.mpr ((hright _ hmem kept hkept).trans hmeaning.symm)
    exact ⟨hmeaning.trans hbuilt.allCandidates_iff.symm, hsame ▸ hkept⟩

end Units

theorem buildComponents_sharedEligible_of_sample : ∃ components,
    buildComponents sampleFingerprint sampleUnits ⟨"", 2, 8, ""⟩ = .ok components ∧
      ∀ component ∈ components, AllCandidates ⟨"", 2, 8, ""⟩ components component := by
  have haccepted : (planConvexWasmPhysicalShards sampleFingerprint
      (sampleRequest sampleUnits)).toOption.isSome = true := by
    decide +kernel
  obtain ⟨plan, hplan⟩ := Option.isSome_iff_exists.mp haccepted
  have hadmitted : Admitted sampleUnits :=
    (planConvexWasmPhysicalShards_eq_ok (toOption_eq_some.mp hplan)).1
  have hdigests : DistinctDigests sampleFingerprint sampleUnits := by
    unfold DistinctDigests
    decide +kernel
  have hbuilt : ((buildComponents sampleFingerprint sampleUnits ⟨"", 2, 8, ""⟩).toOption.map
      fun components => components.all (·.sharedEligible)) = some true := by
    decide +kernel
  obtain ⟨components, hcomponents, hall⟩ := Option.map_eq_some_iff.mp hbuilt
  rw [toOption_eq_some] at hcomponents
  obtain ⟨-, -, answers, -, hmarked⟩ := buildComponents_sharedEligible hadmitted hdigests
  exact ⟨components, hcomponents, fun component hcomponent =>
    (hmarked components hcomponents component hcomponent).1.mp
      (all_eq_true.mp hall component hcomponent)⟩

end ConvexWasm.ShardPlanner
