import ConvexWasm.Compiler.SummaryCacheMaintenance

/-!
# A lookup among other compilers

Whatever the others do, a lookup ends in one of seven ways.  The bytes it
returns are those of the summary it found first, since a published file is
never written to again; it fails exactly when the summary was replaced or its
times changed at a moment the lookup compares.
-/

namespace ConvexWasm.Compiler.SummaryCache

open List Program Sharing

variable {name : CacheName} {key : CacheKey} {file : ℕ} {bytes : List UInt8}
  {state final : CacheTree} {trace : Trace}

theorem Sealed.runs {Result : Type} {program : CacheProgram Result}
    {outcome : Except ErrorChain Result} (hsealed : Sealed file bytes state.store)
    (hruns : cache.Runs program state trace outcome final) : Sealed file bytes final.store :=
  (hruns.invariant (fun _ _ => Sealed.others) (fun _ _ _ _ => Sealed.performs) hsealed).1

variable {found : CacheTree}

theorem Sealed.reach (hsealed : Sealed file bytes state.store)
    (hreach : Relation.ReflTransGen cache.others state found) : Sealed file bytes found.store := by
  induction hreach with
  | refl => exact hsealed
  | tail _ hstep ih => exact ih.others hstep

theorem SingleNames.reach (hsingle : SingleNames state.store)
    (hreach : Relation.ReflTransGen cache.others state found) : SingleNames found.store := by
  induction hreach with
  | refl => exact hsingle
  | tail _ hstep ih => exact ih.others hstep

/-- The pieces read of a sealed file make up its content. -/
theorem readBytes_spec {expectedLen offset fuel : ℕ} {outcome : Except ErrorChain (List UInt8)}
    (hsealed : Sealed file bytes state.store) (hlength : bytes.length = expectedLen)
    (hoffset : offset ≤ expectedLen) (hfuel : expectedLen ≤ offset + fuel)
    (hruns : cache.Runs (readBytes name file expectedLen fuel (bytes.take offset))
      state trace outcome final) :
    outcome = .ok bytes ∧ ∀ observation ∈ trace, ∃ offset limit,
      observation.operation = .readFile file offset limit := by
  induction fuel generalizing state trace offset with
  | zero =>
    obtain ⟨rfl, rfl, -⟩ := Runs.of_done hruns
    rw [take_of_length_le (by omega)]
    exact ⟨rfl, fun _ hmem => absurd hmem not_mem_nil⟩
  | succ fuel ih =>
    have htake : (bytes.take offset).length = offset := by
      rw [length_take]
      omega
    rw [readBytes, htake] at hruns
    by_cases hshort : offset < expectedLen
    · rw [if_pos hshort] at hruns
      obtain ⟨found, chunk, changed, later, rfl, hreach, hperforms, hlater⟩ :=
        Runs.of_perform hruns
      obtain ⟨hpiece, hlimit, hempty, rfl⟩ := hperforms
      have hfound := hsealed.reach hreach
      rw [hfound.content] at hpiece hempty
      have hchunk : chunk ≠ [] := by
        intro hnil
        have hend := hempty hnil
        omega
      obtain ⟨-, hrest⟩ | ⟨hfalse, -⟩ := Runs.of_ensure hlater
      · have hnext : bytes.take offset ++ chunk = bytes.take (offset + chunk.length) := by
          rw [take_add, prefix_iff_eq_take.mp hpiece, length_take]
          simp
        have hbound : offset + chunk.length ≤ expectedLen := by
          omega
        rw [hnext] at hrest
        have hgrows := length_pos_of_ne_nil hchunk
        obtain ⟨houtcome, hreads⟩ := ih hfound hbound (by omega) hrest
        exact ⟨houtcome, forall_mem_cons.mpr ⟨⟨_, _, rfl⟩, hreads⟩⟩
      · simp [hchunk] at hfalse
    · rw [if_neg hshort] at hruns
      obtain ⟨rfl, rfl, -⟩ := Runs.of_done hruns
      rw [take_of_length_le (by omega)]
      exact ⟨rfl, fun _ hmem => absurd hmem not_mem_nil⟩

theorem readBytes_all {inspected : CacheTree} {outcome : Except ErrorChain (List UInt8)}
    (hsealed : Sealed file bytes inspected.store)
    (hruns : cache.Runs (readBytes name file (inspected.store.content file).length
      (inspected.store.content file).length []) inspected trace outcome final) :
    outcome = .ok bytes ∧ ∀ observation ∈ trace, ∃ offset limit,
      observation.operation = .readFile file offset limit := by
  rw [hsealed.content] at hruns
  have hstart : cache.Runs (readBytes name file bytes.length bytes.length (bytes.take 0))
      inspected trace outcome final := hruns
  exact readBytes_spec hsealed rfl (Nat.zero_le _) (by omega) hstart

/-- The ways in which a lookup ends, with what it observes. -/
inductive ReadRun (name : CacheName) : Trace → Except ErrorChain (Option (List UInt8)) → Prop where
  | missing {looked : CacheTree} (hentry : looked.store.entry name = none) :
      ReadRun name [⟨.lookup name, looked⟩] (.ok none)
  | large {looked : CacheTree} {file : ℕ} {error : ErrorChain}
      (hentry : looked.store.entry name = some file)
      (hlarge : moduleSummaryCacheMaxBytes < (looked.store.content file).length) :
      ReadRun name [⟨.lookup name, looked⟩] (.error error)
  | evicted {looked opened : CacheTree} {file : ℕ} (hentry : looked.store.entry name = some file)
      (hsmall : (looked.store.content file).length ≤ moduleSummaryCacheMaxBytes)
      (hnone : opened.store.entry name = none) :
      ReadRun name [⟨.lookup name, looked⟩, ⟨.openFile name, opened⟩] (.ok none)
  | replaced {looked opened inspected : CacheTree} {file other : ℕ} {error : ErrorChain}
      (hentry : looked.store.entry name = some file)
      (hopened : opened.store.entry name = some other) (hother : other ≠ file) :
      ReadRun name [⟨.lookup name, looked⟩, ⟨.openFile name, opened⟩,
        ⟨.inspectFile other, inspected⟩] (.error error)
  | disturbed {looked opened inspected after : CacheTree} {file : ℕ} {reads : Trace}
      {error : ErrorChain} (hentry : looked.store.entry name = some file)
      (hopened : opened.store.entry name = some file)
      (hreads : ∀ observation ∈ reads, ∃ offset limit,
        observation.operation = .readFile file offset limit)
      (hchanged : ¬ (after.store.stamp file = inspected.store.stamp file ∧
        after.modified file = inspected.modified file)) :
      ReadRun name (⟨.lookup name, looked⟩ :: ⟨.openFile name, opened⟩ ::
        ⟨.inspectFile file, inspected⟩ :: (reads ++ [⟨.reinspectFile file, after⟩])) (.error error)
  | read {looked opened inspected after last : CacheTree} {file : ℕ} {reads : Trace}
      (hentry : looked.store.entry name = some file)
      (hsmall : (looked.store.content file).length ≤ moduleSummaryCacheMaxBytes)
      (hopened : opened.store.entry name = some file)
      (hreads : ∀ observation ∈ reads, ∃ offset limit,
        observation.operation = .readFile file offset limit)
      (hsame : after.store.stamp file = inspected.store.stamp file ∧
        after.modified file = inspected.modified file)
      (hlast : last.store.entry name = none ∨ last.store.entry name = some file) :
      ReadRun name (⟨.lookup name, looked⟩ :: ⟨.openFile name, opened⟩ ::
        ⟨.inspectFile file, inspected⟩ ::
        (reads ++ [⟨.reinspectFile file, after⟩, ⟨.recheck name, last⟩]))
        (.ok (some (looked.store.content file)))
  | renamed {looked opened inspected after last : CacheTree} {file other : ℕ} {reads : Trace}
      {error : ErrorChain} (hentry : looked.store.entry name = some file)
      (hopened : opened.store.entry name = some file)
      (hreads : ∀ observation ∈ reads, ∃ offset limit,
        observation.operation = .readFile file offset limit)
      (hlast : last.store.entry name = some other) (hother : other ≠ file) :
      ReadRun name (⟨.lookup name, looked⟩ :: ⟨.openFile name, opened⟩ ::
        ⟨.inspectFile file, inspected⟩ ::
        (reads ++ [⟨.reinspectFile file, after⟩, ⟨.recheck name, last⟩])) (.error error)

variable {outcome : Except ErrorChain (Option (List UInt8))}

theorem readRun_of_finish {looked opened inspected middle : CacheTree} {reads later : Trace}
    (hentry : looked.store.entry name = some file)
    (hsmall : (looked.store.content file).length ≤ moduleSummaryCacheMaxBytes)
    (hopened : opened.store.entry name = some file)
    (hinspected : Sealed file (looked.store.content file) inspected.store)
    (hmiddle : Sealed file (looked.store.content file) middle.store)
    (hreads : ∀ observation ∈ reads, ∃ offset limit,
      observation.operation = .readFile file offset limit)
    (hruns : cache.Runs (finishRead name (inspected.view file) (looked.store.content file))
      middle later outcome final) :
    ReadRun name (⟨.lookup name, looked⟩ :: ⟨.openFile name, opened⟩ ::
      ⟨.inspectFile file, inspected⟩ :: (reads ++ later)) outcome := by
  obtain ⟨_, found, after, later, rfl, hreach, ⟨rfl, rfl⟩, hruns⟩ := Runs.of_perform hruns
  have hafter := hmiddle.reach hreach
  have hlength : (inspected.store.content file).length = (after.store.content file).length := by
    rw [hinspected.content, hafter.content]
  obtain ⟨hsame, hruns⟩ | ⟨hdiffers, rfl, rfl⟩ := Runs.of_ensure hruns
  · obtain ⟨-, -, hstamp, hmodified⟩ := of_decide_eq_true hsame
    obtain ⟨_, found, last, later, rfl, hreach, ⟨rfl, rfl⟩, hruns⟩ := Runs.of_perform hruns
    cases hlast : last.store.entry name with
    | none =>
      rw [CacheTree.viewOf, hlast] at hruns
      obtain ⟨rfl, rfl, -⟩ := Runs.of_done hruns
      exact .read hentry hsmall hopened hreads ⟨hstamp.symm, hmodified.symm⟩ (.inl hlast)
    | some other =>
      rw [CacheTree.viewOf, hlast] at hruns
      obtain ⟨hfile, hruns⟩ | ⟨hfile, rfl, rfl⟩ := Runs.of_ensure hruns
      · obtain rfl : other = file := of_decide_eq_true hfile
        obtain ⟨rfl, rfl, -⟩ := Runs.of_done hruns
        exact .read hentry hsmall hopened hreads ⟨hstamp.symm, hmodified.symm⟩ (.inr hlast)
      · exact .renamed hentry hopened hreads hlast (of_decide_eq_false hfile)
  · refine .disturbed hentry hopened hreads fun hsame => of_decide_eq_false hdiffers ?_
    exact ⟨rfl, hlength, hsame.1.symm, hsame.2.symm⟩

theorem readRun_of_runs (hsingle : SingleNames state.store)
    (hruns : cache.Runs (readModuleSummaryCache (.published key)) state trace outcome final) :
    ReadRun (.published key) trace outcome := by
  obtain ⟨_, found, looked, later, rfl, hreach, ⟨rfl, rfl⟩, hruns⟩ := Runs.of_perform hruns
  replace hsingle := hsingle.reach hreach
  cases hentry : looked.store.entry (.published key) with
  | none =>
    rw [CacheTree.viewOf, hentry] at hruns
    obtain ⟨rfl, rfl, -⟩ := Runs.of_done hruns
    exact .missing hentry
  | some file =>
    rw [CacheTree.viewOf, hentry] at hruns
    have hsealed := hsingle.published hentry
    obtain ⟨hsmall, hruns⟩ | ⟨hlarge, rfl, rfl⟩ := Runs.of_ensure hruns
    · obtain ⟨_, found, opened, later, rfl, hreach, ⟨rfl, rfl⟩, hruns⟩ := Runs.of_perform hruns
      replace hsealed := hsealed.reach hreach
      cases hopened : opened.store.entry (.published key) with
      | none =>
        rw [hopened] at hruns
        obtain ⟨rfl, rfl, -⟩ := Runs.of_done hruns
        exact .evicted hentry (of_decide_eq_true hsmall) hopened
      | some other =>
        rw [hopened] at hruns
        obtain ⟨_, found, inspected, later, rfl, hreach, ⟨rfl, rfl⟩, hruns⟩ :=
          Runs.of_perform hruns
        replace hsealed := hsealed.reach hreach
        obtain ⟨hsame, hunchanged⟩ | ⟨hdiffers, rfl, rfl⟩ := Runs.of_ensure hruns
        · obtain ⟨rfl, -⟩ : other = file ∧ _ := of_decide_eq_true hsame
          have hrest : cache.Runs (readBytes (.published key) other
                (inspected.store.content other).length
                (inspected.store.content other).length [] >>= fun bytes =>
              finishRead (.published key) (inspected.view other) bytes)
              inspected later outcome final := hunchanged
          obtain ⟨error, rfl, hread⟩ | ⟨bytes, middle, reads, later, rfl, hread, hruns⟩ :=
            Runs.of_bind hrest
          · cases (readBytes_all hsealed hread).1
          · obtain ⟨hbytes, hreads⟩ := readBytes_all hsealed hread
            cases hbytes
            exact readRun_of_finish hentry (of_decide_eq_true hsmall) hopened hsealed
              (hsealed.runs hread) hreads hruns
        · refine .replaced hentry hopened fun heq => ?_
          subst heq
          have hlength : (inspected.store.content other).length =
              (looked.store.content other).length := by rw [hsealed.content]
          exact of_decide_eq_false hdiffers ⟨rfl, hlength⟩
    · exact .large hentry (not_le.mp (of_decide_eq_false hlarge))

/-- The lookup misses, or returns all bytes of the summary that was published
under the name when it looked. -/
def ReadTolerated (name : CacheName) (trace : Trace)
    (outcome : Except ErrorChain (Option (List UInt8))) : Prop :=
  ∃ result, outcome = .ok result ∧ ∀ bytes, result = some bytes →
    ∃ looked file, ⟨.lookup name, looked⟩ ∈ trace ∧
      looked.store.entry name = some file ∧ looked.store.content file = bytes

/-- The summary is not beyond the limit, is not replaced between the first and
a later look at its name, and keeps its times while it is read. -/
structure ReadUndisturbed (name : CacheName) (trace : Trace) : Prop where
  small : ∀ looked file, ⟨.lookup name, looked⟩ ∈ trace →
    looked.store.entry name = some file →
    (looked.store.content file).length ≤ moduleSummaryCacheMaxBytes
  unreplaced : ∀ looked opened file, ⟨.lookup name, looked⟩ ∈ trace →
    ⟨.openFile name, opened⟩ ∈ trace → opened.store.entry name = some file →
    looked.store.entry name = some file
  untouched : ∀ inspected after file, ⟨.inspectFile file, inspected⟩ ∈ trace →
    ⟨.reinspectFile file, after⟩ ∈ trace →
    after.store.stamp file = inspected.store.stamp file ∧
      after.modified file = inspected.modified file
  kept : ∀ looked last file, ⟨.lookup name, looked⟩ ∈ trace →
    ⟨.recheck name, last⟩ ∈ trace → last.store.entry name = some file →
    looked.store.entry name = some file

theorem ReadRun.tolerated_iff (hrun : ReadRun name trace outcome) :
    ReadTolerated name trace outcome ↔ ReadUndisturbed name trace := by
  cases hrun with
  | missing hentry =>
    refine iff_of_true ⟨none, rfl, fun _ hbytes => nomatch hbytes⟩ ⟨?_, ?_, ?_, ?_⟩
    all_goals simp_all
  | large hentry hlarge =>
    refine iff_of_false (fun ⟨_, houtcome, _⟩ => nomatch houtcome) fun hundisturbed => ?_
    exact absurd (hundisturbed.small _ _ mem_cons_self hentry) (not_le.mpr hlarge)
  | evicted hentry hsmall hnone =>
    refine iff_of_true ⟨none, rfl, fun _ hbytes => nomatch hbytes⟩ ⟨?_, ?_, ?_, ?_⟩
    all_goals simp_all
  | @replaced looked opened inspected file other _ hentry hopened hother =>
    refine iff_of_false (fun ⟨_, houtcome, _⟩ => nomatch houtcome) fun hundisturbed => ?_
    have hsame := hundisturbed.unreplaced looked opened other (by simp) (by simp) hopened
    exact hother (Option.some.inj (hsame.symm.trans hentry))
  | @disturbed looked opened inspected after file reads _ hentry hopened hreads hchanged =>
    refine iff_of_false (fun ⟨_, houtcome, _⟩ => nomatch houtcome) fun hundisturbed => ?_
    exact hchanged (hundisturbed.untouched inspected after file (by simp) (by simp))
  | @read looked opened inspected after last file reads hentry hsmall hopened hreads hsame hlast =>
    have hmem : ∀ observation, observation ∈ (⟨.lookup name, looked⟩ ::
        ⟨.openFile name, opened⟩ :: ⟨.inspectFile file, inspected⟩ ::
        (reads ++ [⟨.reinspectFile file, after⟩, ⟨.recheck name, last⟩]) : Trace) →
        (∀ offset limit, observation.operation ≠ .readFile file offset limit) →
        observation = ⟨.lookup name, looked⟩ ∨ observation = ⟨.openFile name, opened⟩ ∨
        observation = ⟨.inspectFile file, inspected⟩ ∨
        observation = ⟨.reinspectFile file, after⟩ ∨ observation = ⟨.recheck name, last⟩ := by
      intro observation hobservation hother
      simp only [mem_cons, mem_append, not_mem_nil, or_false] at hobservation
      obtain h | h | h | h | h | h := hobservation
      · exact .inl h
      · exact .inr (.inl h)
      · exact .inr (.inr (.inl h))
      · obtain ⟨offset, limit, hread⟩ := hreads observation h
        exact absurd hread (hother offset limit)
      · exact .inr (.inr (.inr (.inl h)))
      · exact .inr (.inr (.inr (.inr h)))
    refine iff_of_true ⟨_, rfl, fun bytes hbytes => ?_⟩ ⟨?_, ?_, ?_, ?_⟩
    · exact ⟨looked, file, mem_cons_self, hentry, Option.some.inj hbytes⟩
    · intro other found hlooked hfound
      obtain rfl : other = looked := by simpa using hmem _ hlooked (by simp)
      rw [hentry] at hfound
      cases hfound
      exact hsmall
    · intro other second found hlooked hopenedAt hfound
      obtain rfl : other = looked := by simpa using hmem _ hlooked (by simp)
      obtain rfl : second = opened := by simpa using hmem _ hopenedAt (by simp)
      rw [hentry, ← hopened, hfound]
    · intro first second found hinspected hafter
      obtain ⟨rfl, rfl⟩ : found = file ∧ first = inspected := by
        simpa using hmem _ hinspected (by simp)
      obtain rfl : second = after := by simpa using hmem _ hafter (by simp)
      exact hsame
    · intro other second found hlooked hlastAt hfound
      obtain rfl : other = looked := by simpa using hmem _ hlooked (by simp)
      obtain rfl : second = last := by simpa using hmem _ hlastAt (by simp)
      rw [hfound] at hlast
      obtain hnone | hkept := hlast
      · cases hnone
      · rw [hentry, hkept]
  | @renamed looked opened inspected after last file other reads _ hentry hopened hreads hlast hother =>
    refine iff_of_false (fun ⟨_, houtcome, _⟩ => nomatch houtcome) fun hundisturbed => ?_
    have hsame := hundisturbed.kept looked last other (by simp) (by simp) hlast
    exact hother (Option.some.inj (hsame.symm.trans hentry))

end ConvexWasm.Compiler.SummaryCache
