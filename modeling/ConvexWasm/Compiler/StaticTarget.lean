import ConvexWasm.Compiler.Summary

/-!
# Resolving a name to a callable

A name is followed through callable aliases of its module and through imports
and exports of loaded modules.  The set of names already seen stops cyclic
aliases and re-exports.
-/

namespace ConvexWasm.Compiler

open List

/-- Module and unit name of a callable. -/
abbrev StaticCallableTarget := String × String

/-- Where one name leads: to a target, nowhere, or to another name. -/
inductive SourceStep
  | resolved (target : Option StaticCallableTarget)
  | follow (module callee : String)
  deriving DecidableEq

section Resolution

variable (graph : GraphInput) (modules : LoadedModules)

/-- The body of `resolve_static_source_target_inner` after its cycle check. -/
def staticSourceStep (callerModule callee : String) : Except String SourceStep :=
  match modules.get? callerModule with
  | none => .error "callable-resolution caller module disappeared"
  | some caller =>
    match caller.units.get? callee with
    | some unit =>
      match unit.staticCallableAlias with
      | some aliased => .ok (.follow callerModule aliased.target)
      | none => .ok (.resolved (some (callerModule, unit.name)))
    | none =>
      match caller.imports.get? callee with
      | none => .ok (.resolved none)
      | some binding =>
        if binding.typeOnly then .ok (.resolved none)
        else do
          let resolved ← resolveGraphImport graph callerModule binding.specifier
          match modules.get? resolved with
          | none => return .resolved none
          | some targetModule =>
            match targetModule.exports.get? binding.imported with
            | none => return .resolved none
            | some targetName => return .follow resolved targetName

/-- One name per unit of fuel; `none` means that the fuel ran out. -/
def resolveStaticSourceTargetInner :
    ℕ → String → String → List (String × String) →
      Option (Except String (Option StaticCallableTarget))
  | 0, _, _, _ => none
  | fuel + 1, callerModule, callee, seen =>
    if (callerModule, callee) ∈ seen then some (.ok none)
    else
      match staticSourceStep graph modules callerModule callee with
      | .error message => some (.error message)
      | .ok (.resolved target) => some (.ok target)
      | .ok (.follow nextModule nextCallee) =>
        resolveStaticSourceTargetInner fuel nextModule nextCallee ((callerModule, callee) :: seen)

/-- The names a loaded module declares or imports. -/
def bindingKeys : List (String × String) :=
  modules.entries.flatMap fun entry =>
    (entry.2.units.keys ++ entry.2.imports.keys).map fun name => (entry.1, name)

def resolutionFuel : ℕ := (bindingKeys modules).length + 1

def resolveStaticSourceTarget (callerModule callee : String) :
    Except String (Option StaticCallableTarget) :=
  (resolveStaticSourceTargetInner graph modules (resolutionFuel modules)
    callerModule callee []).getD (.ok none)

end Resolution

section Termination

variable {graph : GraphInput} {modules : LoadedModules}

/-- Only a declared or imported name leads on to another name. -/
theorem mem_bindingKeys_of_follow {callerModule callee nextModule nextCallee : String}
    (hstep : staticSourceStep graph modules callerModule callee =
      .ok (.follow nextModule nextCallee)) : (callerModule, callee) ∈ bindingKeys modules := by
  unfold staticSourceStep at hstep
  cases hmodule : modules.get? callerModule with
  | none => simp [hmodule] at hstep
  | some caller =>
    have hname : callee ∈ caller.units.keys ∨ callee ∈ caller.imports.keys := by
      simp only [KeyedMap.mem_keys_iff]
      cases hunit : caller.units.get? callee with
      | some unit => exact .inl ⟨unit, rfl⟩
      | none =>
        cases himport : caller.imports.get? callee with
        | some binding => exact .inr ⟨binding, rfl⟩
        | none => simp [hmodule, hunit, himport] at hstep
    have hentry := KeyedMap.get?_eq_some_iff.mp hmodule
    refine mem_flatMap.mpr ⟨(callerModule, caller), hentry, ?_⟩
    exact mem_map.mpr ⟨callee, mem_append.mpr hname, rfl⟩

/-- Binding names not seen yet. -/
def unseen (modules : LoadedModules) (seen : List (String × String)) : ℕ :=
  ((bindingKeys modules).filter (· ∉ seen)).length

theorem unseen_cons_lt {key : String × String} {seen : List (String × String)}
    (hkey : key ∈ bindingKeys modules) (hseen : key ∉ seen) :
    unseen modules (key :: seen) < unseen modules seen := by
  have hsplit : (bindingKeys modules).filter (· ∉ key :: seen) =
      ((bindingKeys modules).filter (· ∉ seen)).filter (· ≠ key) := by
    rw [filter_filter]
    refine filter_congr fun entry _ => ?_
    simp
  rw [unseen, unseen, hsplit]
  refine length_filter_lt_length_iff_exists.mpr ⟨key, ?_, ?_⟩
  · simp [hkey, hseen]
  · simp

/-- Every recursive call has one name fewer to see. -/
theorem resolveStaticSourceTargetInner_isSome (fuel : ℕ) :
    ∀ callerModule callee seen, unseen modules seen < fuel →
      (resolveStaticSourceTargetInner graph modules fuel callerModule callee seen).isSome := by
  induction fuel with
  | zero => exact fun _ _ _ hfuel => absurd hfuel (Nat.not_lt_zero _)
  | succ fuel ih =>
    intro callerModule callee seen hfuel
    unfold resolveStaticSourceTargetInner
    split
    · rfl
    · rename_i hseen
      split
      · rfl
      · rfl
      · rename_i hstep
        have hlt := unseen_cons_lt (mem_bindingKeys_of_follow hstep) hseen
        apply ih
        omega

/-- A result does not depend on how much fuel was left. -/
theorem resolveStaticSourceTargetInner_mono (fuel : ℕ) :
    ∀ callerModule callee seen result,
      resolveStaticSourceTargetInner graph modules fuel callerModule callee seen = some result →
      resolveStaticSourceTargetInner graph modules (fuel + 1) callerModule callee
        seen = some result := by
  induction fuel with
  | zero =>
    intro callerModule callee seen result hresult
    cases hresult
  | succ fuel ih =>
    intro callerModule callee seen result hresult
    rw [resolveStaticSourceTargetInner] at hresult ⊢
    by_cases hseen : (callerModule, callee) ∈ seen
    · rwa [if_pos hseen] at hresult ⊢
    · rw [if_neg hseen] at hresult ⊢
      split
      · rename_i hstep
        simpa only [hstep] using hresult
      · rename_i hstep
        simpa only [hstep] using hresult
      · rename_i hstep
        simp only [hstep] at hresult
        exact ih _ _ _ _ hresult

/-- Resolution returns for every name, cyclic aliases and re-exports included,
whatever fuel beyond the number of binding names it is given. -/
theorem resolveStaticSourceTarget_total (callerModule callee : String) {fuel : ℕ}
    (hfuel : resolutionFuel modules ≤ fuel) :
    resolveStaticSourceTargetInner graph modules fuel callerModule callee [] =
      some (resolveStaticSourceTarget graph modules callerModule callee) := by
  have hreturns : (resolveStaticSourceTargetInner graph modules
      (resolutionFuel modules) callerModule callee []).isSome := by
    apply resolveStaticSourceTargetInner_isSome
    exact Nat.lt_succ_of_le (length_filter_le _ _)
  obtain ⟨result, hresult⟩ := Option.isSome_iff_exists.mp hreturns
  have htarget :
      resolveStaticSourceTarget graph modules callerModule callee = result := by
    rw [resolveStaticSourceTarget, hresult, Option.getD_some]
  rw [htarget]
  induction fuel, hfuel using Nat.le_induction with
  | base => exact hresult
  | succ fuel _ ih => exact resolveStaticSourceTargetInner_mono _ _ _ _ _ ih

end Termination

end ConvexWasm.Compiler
