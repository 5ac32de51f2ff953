import ConvexWasm.Compiler.CacheIntegrity

/-!
# When a load or a publication succeeds

A call that runs alone in a directory that others left behind succeeds unless
its temporary is there already.  A process whose id was not used by a process
that crashed with a temporary never meets that.
-/

namespace ConvexWasm.Compiler.CachePublication

open Function List TransitionSystem

section Tools

variable {Facts : Type} (tools : Tools Facts)

/-- A load that runs alone is bound to succeed. -/
def LoadSucceeds (pipeline : Pipeline) (input : ModuleInput) (pid : ℕ) (store : CacheStore)
    (phase : LoadPhase) : Prop :=
  Inevitable (fun chunk (state : CacheStore × LoadPhase) =>
      loadStep tools pipeline input pid chunk state.1 state.2)
    (fun state => state.2 = .finished true) (store, phase)

/-- A publication that runs alone is bound to succeed. -/
def PublishSucceeds (source : Bytes) (pid : ℕ) (store : CacheStore) (temporaries : ℕ)
    (phase : PublishPhase) : Prop :=
  Inevitable (fun chunk (state : CacheStore × ℕ × PublishPhase) =>
      publishStep tools source pid chunk state.1 state.2.1 state.2.2)
    (fun state => state.2.2 = .finished true) (store, temporaries, phase)

end Tools

variable {Facts : Type} {tools : Tools Facts} {pipeline : Pipeline} {input : ModuleInput}
  {source : Bytes} {pid temporaries temporaries' : ℕ} {store store' : CacheStore}

theorem loadSucceeds_step {phase phase' : LoadPhase} (hphase : phase ≠ .finished true)
    (hstep : ∀ chunk, loadStep tools pipeline input pid chunk store phase = some (store', phase')) :
    LoadSucceeds tools pipeline input pid store phase ↔
      LoadSucceeds tools pipeline input pid store' phase' :=
  inevitable_step_iff hphase hstep

theorem publishSucceeds_step {phase phase' : PublishPhase} (hphase : phase ≠ .finished true)
    (hstep : ∀ chunk, publishStep tools source pid chunk store temporaries phase =
      some (store', temporaries', phase')) :
    PublishSucceeds tools source pid store temporaries phase ↔
      PublishSucceeds tools source pid store' temporaries' phase' :=
  inevitable_step_iff hphase hstep

theorem loadSucceeds_finished (succeeded : Bool) :
    LoadSucceeds tools pipeline input pid store (.finished succeeded) ↔ succeeded = true := by
  constructor
  · intro hsucceeds
    by_contra hfailed
    refine not_inevitable_of_stuck ?_ (fun _ => rfl) hsucceeds
    simpa using hfailed
  · rintro rfl
    exact .here rfl

theorem publishSucceeds_finished (succeeded : Bool) :
    PublishSucceeds tools source pid store temporaries (.finished succeeded) ↔
      succeeded = true := by
  constructor
  · intro hsucceeds
    by_contra hfailed
    refine not_inevitable_of_stuck ?_ (fun _ => rfl) hsucceeds
    simpa using hfailed
  · rintro rfl
    exact .here rfl

/-- What a publisher of the same key wrote is admitted. -/
theorem admits_encode (hlawful : tools.Lawful) {summary : CachedSummary Facts}
    (hsummary : summarizeModule tools pipeline input = some summary) :
    admits tools pipeline input (tools.encode summary) = true := by
  obtain ⟨facts, _, rfl⟩ := Option.map_eq_some_iff.mp hsummary
  rw [admits, hlawful.decode_encode]
  simp

/-- A published summary is loaded when it is not too long. -/
theorem loadSucceeds_hit (hlawful : tools.Lawful) {file : ℕ}
    (hentry : store.entry (.summary (moduleSummaryCacheKey tools pipeline input)) = some file)
    (hcomplete : Complete tools (.summary (moduleSummaryCacheKey tools pipeline input))
      (store.content file)) :
    LoadSucceeds tools pipeline input pid store .lookup ↔
      (store.content file).length ≤ moduleSummaryCacheMaxBytes := by
  obtain ⟨pipeline', input', summary, hkey, hsummary, hcontent⟩ := hcomplete
  obtain ⟨hpipeline, hinput⟩ := moduleSummaryCacheKey_injective hlawful hkey
  rw [hpipeline, hinput] at hsummary
  have hadmits := admits_encode hlawful hsummary
  rw [← hcontent] at hadmits
  by_cases hlength : (store.content file).length ≤ moduleSummaryCacheMaxBytes
  · have hlookup : ∀ chunk, loadStep tools pipeline input pid chunk store .lookup =
        some (store, .inspected file (store.content file).length) := by
      intro chunk
      simp only [loadStep, hentry, if_pos hlength]
    have hinspected : ∀ chunk, loadStep tools pipeline input pid chunk store
        (.inspected file (store.content file).length) =
          some (store, .opened file (store.stamp file)) := by
      intro chunk
      simp [loadStep, hentry]
    have hopened : ∀ chunk, loadStep tools pipeline input pid chunk store
        (.opened file (store.stamp file)) = some (store, .read file (store.content file)) := by
      intro chunk
      simp [loadStep]
    have hread : ∀ chunk, loadStep tools pipeline input pid chunk store
        (.read file (store.content file)) = some (store, .touch) := by
      intro chunk
      simp [loadStep, hentry, hadmits]
    have htouch : ∀ chunk, loadStep tools pipeline input pid chunk store .touch =
        some (store, .touchInspected file) := by
      intro chunk
      simp only [loadStep, hentry]
    have htouchInspected : ∀ chunk, loadStep tools pipeline input pid chunk store
        (.touchInspected file) = some (store, .touchOpened file) := by
      intro chunk
      simp [loadStep, hentry]
    have htouchOpened : ∀ chunk, loadStep tools pipeline input pid chunk store
        (.touchOpened file) = some (store.touch file, .touched file) := fun _ => rfl
    have htouched : ∀ chunk, loadStep tools pipeline input pid chunk (store.touch file)
        (.touched file) = some (store.touch file, .finished true) := by
      intro chunk
      simp [loadStep, hentry]
    rw [loadSucceeds_step (by simp) hlookup, loadSucceeds_step (by simp) hinspected,
      loadSucceeds_step (by simp) hopened, loadSucceeds_step (by simp) hread,
      loadSucceeds_step (by simp) htouch, loadSucceeds_step (by simp) htouchInspected,
      loadSucceeds_step (by simp) htouchOpened, loadSucceeds_step (by simp) htouched,
      loadSucceeds_finished]
    exact iff_of_true rfl hlength
  · have hlookup : ∀ chunk, loadStep tools pipeline input pid chunk store .lookup =
        some (store, .finished false) := by
      intro chunk
      simp only [loadStep, hentry, if_neg hlength]
    rw [loadSucceeds_step (by simp) hlookup, loadSucceeds_finished]
    exact iff_of_false Bool.false_ne_true hlength

/-- A summary that is being written alone gets its place. -/
theorem loadSucceeds_writing {file : ℕ} (remaining : Bytes) :
    ∀ store : CacheStore,
      store.entry (.summaryTemporary (moduleSummaryCacheKey tools pipeline input) pid) = some file →
      LoadSucceeds tools pipeline input pid store (.writing file remaining) := by
  induction hlength : remaining.length using Nat.strong_induction_on generalizing remaining with
  | _ length ih =>
    intro store htemporary
    cases remaining with
    | nil =>
      have hrename : store.rename
          (.summaryTemporary (moduleSummaryCacheKey tools pipeline input) pid)
          (.summary (moduleSummaryCacheKey tools pipeline input)) ≠ none := by
        rw [Ne, FileStore.rename_eq_none_iff, htemporary]
        simp
      obtain ⟨renamed, hrenamed⟩ := Option.ne_none_iff_exists'.mp hrename
      have hpublish : ∀ chunk, loadStep tools pipeline input pid chunk store
          (.publish file) = some (renamed, .finished true) := by
        intro chunk
        simp only [loadStep, hrenamed]
      have hwritten : ∀ chunk, loadStep tools pipeline input pid chunk store
          (.writing file []) = some (store, .publish file) := fun _ => rfl
      rw [loadSucceeds_step (by simp) hwritten, loadSucceeds_step (by simp) hpublish]
      exact (loadSucceeds_finished true).mpr rfl
    | cons byte rest =>
      refine .later (fun chunk =>
        (store.append file ((byte :: rest).take (chunk + 1)),
          .writing file ((byte :: rest).drop (chunk + 1)))) (fun _ => rfl) fun chunk => ?_
      refine ih _ ?_ _ rfl _ htemporary
      rw [← hlength, length_drop, length_cons]
      omega

/-- A summary that is not published is written unless its temporary is there. -/
theorem loadSucceeds_miss
    (hentry : store.entry (.summary (moduleSummaryCacheKey tools pipeline input)) = none) :
    LoadSucceeds tools pipeline input pid store .lookup ↔
      summarizeModule tools pipeline input ≠ none ∧
        store.entry (.summaryTemporary (moduleSummaryCacheKey tools pipeline input) pid) =
          none := by
  have hlookup : ∀ chunk, loadStep tools pipeline input pid chunk store .lookup =
      some (store, .create) := by
    intro chunk
    simp only [loadStep, hentry]
  rw [loadSucceeds_step (by simp) hlookup]
  cases hsummary : summarizeModule tools pipeline input with
  | none =>
    have hcreate : ∀ chunk, loadStep tools pipeline input pid chunk store .create =
        some (store, .finished false) := by
      intro chunk
      simp only [loadStep, hsummary]
    rw [loadSucceeds_step (by simp) hcreate, loadSucceeds_finished]
    simp
  | some summary =>
    cases hcreated : store.createNew
        (.summaryTemporary (moduleSummaryCacheKey tools pipeline input) pid) with
    | none =>
      have hcreate : ∀ chunk, loadStep tools pipeline input pid chunk store .create =
          some (store, .finished false) := by
        intro chunk
        simp only [loadStep, hsummary, hcreated]
      rw [loadSucceeds_step (by simp) hcreate, loadSucceeds_finished]
      exact iff_of_false Bool.false_ne_true
        fun hfree => FileStore.createNew_eq_none_iff.mp hcreated hfree.2
    | some created =>
      have hcreate : ∀ chunk, loadStep tools pipeline input pid chunk store .create =
          some (created.2, .writing created.1 (tools.encode summary)) := by
        intro chunk
        simp only [loadStep, hsummary, hcreated]
      obtain ⟨hfree, hfile, _, _, hentries⟩ := FileStore.createNew_eq_some hcreated
      rw [loadSucceeds_step (by simp) hcreate]
      refine iff_of_true (loadSucceeds_writing _ _ ?_) ⟨by simp, hfree⟩
      rw [hentries, update_self, hfile]

/-- The published source is found right. -/
theorem publishSucceeds_validate (hlawful : tools.Lawful) (reason : Validation) {file : ℕ}
    (hentry : store.entry (.generated (tools.hashBytes source)) = some file)
    (hcontent : tools.hashBytes (store.content file) = tools.hashBytes source) :
    PublishSucceeds tools source pid store temporaries (.validate reason) ↔
      PublishSucceeds tools source pid store temporaries (validated true reason) := by
  have hsource : store.content file = source := hlawful.hash_injective hcontent
  have hvalidate : ∀ chunk, publishStep tools source pid chunk store temporaries
      (.validate reason) = some (store, temporaries, .inspected reason file) := by
    intro chunk
    simp only [publishStep, hentry]
  have hinspected : ∀ chunk, publishStep tools source pid chunk store temporaries
      (.inspected reason file) = some (store, temporaries, .opened reason file) := by
    intro chunk
    simp [publishStep, hentry]
  have hopened : ∀ chunk, publishStep tools source pid chunk store temporaries
      (.opened reason file) = some (store, temporaries, validated true reason) := by
    intro chunk
    simp only [publishStep, hsource]
    rw [take_of_length_le (Nat.le_succ _)]
    simp
  rw [publishSucceeds_step (by simp) hvalidate, publishSucceeds_step (by simp) hinspected,
    publishSucceeds_step (by simp) hopened]

/-- A source that is being written alone is linked, validated and stays. -/
theorem publishSucceeds_writing (hlawful : tools.Lawful) {file sequence : ℕ} (remaining : Bytes) :
    ∀ store : CacheStore,
      store.entry (.generatedTemporary (tools.hashBytes source) pid sequence) = some file →
      store.entry (.generated (tools.hashBytes source)) = none →
      store.content file ++ remaining = source →
      PublishSucceeds tools source pid store temporaries (.writing sequence file remaining) := by
  induction hlength : remaining.length using Nat.strong_induction_on generalizing remaining with
  | _ length ih =>
    intro store htemporary hfinal hcontent
    cases remaining with
    | nil =>
      rw [List.append_nil] at hcontent
      obtain ⟨linked, hlinked⟩ := FileStore.hardLink_ok_of htemporary hfinal
      obtain ⟨found, hfound, _, hlinkedContent, _, hlinkedEntry⟩ := FileStore.hardLink_eq_ok hlinked
      rw [htemporary] at hfound
      cases hfound
      have hne : CacheName.generatedTemporary (tools.hashBytes source) pid sequence ≠
          .generated (tools.hashBytes source) := fun heq => nomatch heq
      have hunlink : linked.unlink
          (.generatedTemporary (tools.hashBytes source) pid sequence) ≠ none := by
        rw [Ne, FileStore.unlink_eq_none_iff, hlinkedEntry, update_of_ne hne, htemporary]
        simp
      obtain ⟨unlinked, hunlinked⟩ := Option.ne_none_iff_exists'.mp hunlink
      obtain ⟨hunlinkedEntry, hunlinkedContent, _⟩ := FileStore.unlink_eq_some hunlinked
      have hwritten : ∀ chunk, publishStep tools source pid chunk store temporaries
          (.writing sequence file []) = some (store, temporaries, .link sequence file) :=
        fun _ => rfl
      have hlink : ∀ chunk, publishStep tools source pid chunk store temporaries
          (.link sequence file) = some (linked, temporaries, .cleanup sequence true) := by
        intro chunk
        simp only [publishStep, hlinked]
      have hcleanup : ∀ chunk, publishStep tools source pid chunk linked temporaries
          (.cleanup sequence true) = some (unlinked, temporaries, .validate .published) := by
        intro chunk
        simp [publishStep, hunlinked]
      have hentry : unlinked.entry (.generated (tools.hashBytes source)) = some file := by
        rw [hunlinkedEntry, update_of_ne hne.symm, hlinkedEntry, update_self]
      rw [publishSucceeds_step (by simp) hwritten, publishSucceeds_step (by simp) hlink,
        publishSucceeds_step (by simp) hcleanup,
        publishSucceeds_validate hlawful .published hentry
          (by rw [hunlinkedContent, hlinkedContent, hcontent])]
      exact (publishSucceeds_finished true).mpr rfl
    | cons byte rest =>
      refine .later (fun chunk =>
        (store.append file ((byte :: rest).take (chunk + 1)), temporaries,
          .writing sequence file ((byte :: rest).drop (chunk + 1)))) (fun _ => rfl)
        fun chunk => ?_
      refine ih _ ?_ _ rfl _ htemporary hfinal ?_
      · rw [← hlength, length_drop, length_cons]
        omega
      · rw [FileStore.append_content_self, append_assoc, take_append_drop]
        exact hcontent

/-- A publication succeeds when its source is published or its temporary is free. -/
theorem publishSucceeds_iff (hlawful : tools.Lawful)
    (hcomplete : ∀ file, store.entry (.generated (tools.hashBytes source)) = some file →
      Complete tools (.generated (tools.hashBytes source)) (store.content file)) :
    PublishSucceeds tools source pid store temporaries .lookup ↔
      store.entry (.generated (tools.hashBytes source)) ≠ none ∨
        store.entry (.generatedTemporary (tools.hashBytes source) pid temporaries) = none := by
  cases hentry : store.entry (.generated (tools.hashBytes source)) with
  | some file =>
    have hlookup : ∀ chunk, publishStep tools source pid chunk store temporaries .lookup =
        some (store, temporaries, .validate .existing) := by
      intro chunk
      simp only [publishStep, hentry]
    rw [publishSucceeds_step (by simp) hlookup,
      publishSucceeds_validate hlawful .existing hentry (hcomplete file hentry)]
    exact iff_of_true ((publishSucceeds_finished true).mpr rfl) (.inl (by simp))
  | none =>
    have hlookup : ∀ chunk, publishStep tools source pid chunk store temporaries .lookup =
        some (store, temporaries + 1, .create temporaries) := by
      intro chunk
      simp only [publishStep, hentry]
    rw [publishSucceeds_step (by simp) hlookup]
    cases hcreated : store.createNew
        (.generatedTemporary (tools.hashBytes source) pid temporaries) with
    | none =>
      have hcreate : ∀ chunk, publishStep tools source pid chunk store (temporaries + 1)
          (.create temporaries) = some (store, temporaries + 1, .finished false) := by
        intro chunk
        simp only [publishStep, hcreated]
      rw [publishSucceeds_step (by simp) hcreate, publishSucceeds_finished]
      refine iff_of_false Bool.false_ne_true ?_
      rintro (hpublished | hfree)
      · exact hpublished rfl
      · exact FileStore.createNew_eq_none_iff.mp hcreated hfree
    | some created =>
      have hcreate : ∀ chunk, publishStep tools source pid chunk store (temporaries + 1)
          (.create temporaries) =
            some (created.2, temporaries + 1, .writing temporaries created.1 source) := by
        intro chunk
        simp only [publishStep, hcreated]
      obtain ⟨hfree, hfile, _, hcontent, hentries⟩ := FileStore.createNew_eq_some hcreated
      have hne : CacheName.generated (tools.hashBytes source) ≠
          .generatedTemporary (tools.hashBytes source) pid temporaries := by simp
      rw [publishSucceeds_step (by simp) hcreate]
      refine iff_of_true (publishSucceeds_writing hlawful _ _ ?_ ?_ ?_) (.inr hfree)
      · rw [hentries, update_self, hfile]
      · rw [hentries, update_of_ne hne, hentry]
      · rw [hcontent, hfile, update_self, nil_append]

end ConvexWasm.Compiler.CachePublication
