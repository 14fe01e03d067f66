import WinBlaze.Native.CapacityHints

/-!
# Saving capacity hints one after another

What a save does to the hints of a file is what a bounded list in the order of
change does. In any run the first hint of a full file is the one to go.
-/

namespace WinBlaze

namespace CapacityHints

open RecencyList

variable (sizes : RecordSizes)

def hintsOf (file : Option (List UInt8)) : List StoredHint := (readHints sizes file).getD []

/-- The counts that a file has for a scope. -/
def storedHint (file : Option (List UInt8)) (scope : String) : Option StoredHint :=
  find StoredHint.scope (hintsOf sizes file) scope

def SaveCall.hint (call : SaveCall) : StoredHint := ⟨call.scope, call.files, call.directories⟩

def fileAfter (start : Option (List UInt8)) (calls : List SaveCall) : Option (List UInt8) :=
  calls.foldl (fun file call ↦ (saveHint sizes file call).2) start

/-! ## One save -/

section Saves

variable {sizes} {file : Option (List UInt8)} {call : SaveCall}

theorem distinct_hintsOf : Distinct StoredHint.scope (hintsOf sizes file) := by
  rw [hintsOf]
  cases hread : readHints sizes file with
  | none => exact List.nodup_nil
  | some hints => exact (storable_of_readHints hread).distinct

theorem length_hintsOf_le : (hintsOf sizes file).length ≤ maxHints := by
  rw [hintsOf]
  cases hread : readHints sizes file with
  | none => exact Nat.zero_le _
  | some hints => exact (storable_of_readHints hread).room

theorem saveHint_eq : saveHint sizes file call =
    if estimate sizes call.scope call.files call.directories = none then
      (.error (.invalidInput "invalid or excessive allocation estimate"), file)
    else if storedHint sizes file call.scope = some call.hint then (.ok (), file)
    else if call.replaces then
      (.ok (), some (writeHints (record StoredHint.scope maxHints (hintsOf sizes file) call.hint)))
    else (.error .io, file) := by
  have hdistinct : Distinct StoredHint.scope (hintsOf sizes file) := distinct_hintsOf
  have hrecord : storedHint sizes file call.scope ≠ some call.hint →
      record StoredHint.scope maxHints (hintsOf sizes file) call.hint =
        others StoredHint.scope maxHints (hintsOf sizes file) call.scope ++ [call.hint] :=
    fun hchanged ↦ if_neg hchanged
  have hhints : (readHints sizes file).getD [] = hintsOf sizes file := rfl
  simp only [saveHint, hhints]
  cases estimate sizes call.scope call.files call.directories with
  | none => rfl
  | some capacity =>
      simp only [reduceCtorEq, if_false]
      cases hposition : (hintsOf sizes file).findIdx? (·.scope = call.scope) with
      | none =>
          have hnone : storedHint sizes file call.scope = none :=
            find_eq_none_iff.mpr (by simpa using hposition)
          have hothers : others StoredHint.scope maxHints (hintsOf sizes file) call.scope =
              if (hintsOf sizes file).length = maxHints then (hintsOf sizes file).eraseIdx 0
              else hintsOf sizes file := by
            rw [others, if_neg (by rw [← storedHint, hnone]; simp), List.eraseIdx_zero]
          have hchanged : storedHint sizes file call.scope ≠ some call.hint := by simp [hnone]
          rw [hrecord hchanged, hothers, if_neg hchanged]
          rfl
      | some position =>
          obtain ⟨hentry, hothers⟩ := eraseIdx_findIdx? hdistinct hposition
          obtain ⟨hint, hhint⟩ : ∃ hint, storedHint sizes file call.scope = some hint := by
            refine Option.ne_none_iff_exists'.mp fun hnone ↦ ?_
            have hnever := find_eq_none_iff.mp hnone
            rw [List.findIdx?_eq_none_iff.mpr (by simpa using hnever)] at hposition
            cases hposition
          have hsame : (hintsOf sizes file)[position]?.any (fun hint ↦
              hint.files = call.files ∧ hint.directories = call.directories) = true ↔
                storedHint sizes file call.scope = some call.hint := by
            have hscope : hint.scope = call.scope := (mem_of_find hhint).2
            rw [hentry, ← storedHint, hhint, Option.any_some, Option.some.injEq, SaveCall.hint, ← hscope,
              StoredHint.ext_iff]
            simp
          dsimp only
          by_cases hchanged : storedHint sizes file call.scope = some call.hint
          · rw [if_pos (hsame.mpr hchanged), if_pos hchanged]
          · have hkept : others StoredHint.scope maxHints (hintsOf sizes file) call.scope =
                (hintsOf sizes file).eraseIdx position := by
              rw [others, if_pos (by rw [← storedHint, hhint]; rfl), hothers]
            rw [if_neg (mt hsame.mp hchanged), if_neg hchanged, hrecord hchanged, hkept]
            rfl

theorem storable_record (hestimate : estimate sizes call.scope call.files call.directories ≠ none) :
    Storable sizes (record StoredHint.scope maxHints (hintsOf sizes file) call.hint) := by
  have hmem : call.hint ∈ record StoredHint.scope maxHints (hintsOf sizes file) call.hint :=
    (mem_of_find (find_record_self distinct_hintsOf call.hint)).1
  refine ⟨List.ne_nil_of_mem hmem, length_record_le (by decide) length_hintsOf_le _,
    distinct_hintsOf.record _, fun hint hhint ↦ ?_⟩
  have hold : ∀ hint ∈ hintsOf sizes file,
      (estimate sizes hint.scope hint.files hint.directories).isSome = true := by
    intro hint hhint
    rw [hintsOf] at hhint
    cases hread : readHints sizes file with
    | none => simp [hread] at hhint
    | some hints => exact (storable_of_readHints hread).estimated hint (by simpa [hread] using hhint)
  unfold record at hhint
  split at hhint
  · exact hold hint hhint
  · rcases List.mem_append.mp hhint with hhint | hhint
    · exact hold hint (sublist_others.subset hhint)
    · exact List.mem_singleton.mp hhint ▸ Option.isSome_iff_ne_none.mpr hestimate

/-- A save that fails changes nothing. -/
theorem saveHint_failed (h : (saveHint sizes file call).1 ≠ .ok ()) : (saveHint sizes file call).2 = file := by
  rw [saveHint_eq] at h ⊢
  split_ifs at h ⊢ <;> first | rfl | exact absurd rfl h

/-- A save that succeeds leaves the list with the new counts recorded. -/
theorem saveHint_saved (h : (saveHint sizes file call).1 = .ok ()) :
    estimate sizes call.scope call.files call.directories ≠ none ∧
      readHints sizes (saveHint sizes file call).2 =
        some (record StoredHint.scope maxHints (hintsOf sizes file) call.hint) := by
  rw [saveHint_eq] at h ⊢
  by_cases hestimate : estimate sizes call.scope call.files call.directories = none
  · rw [if_pos hestimate] at h
    cases h
  · rw [if_neg hestimate] at h ⊢
    refine ⟨hestimate, ?_⟩
    split_ifs at h ⊢ with hsame
    · have hrecord : record StoredHint.scope maxHints (hintsOf sizes file) call.hint =
          hintsOf sizes file := if_pos hsame
      rw [hrecord]
      cases hread : readHints sizes file with
      | none => simp [storedHint, hintsOf, hread, find] at hsame
      | some hints => simp [hintsOf, hread]
    · exact readHints_writeHints (storable_record hestimate)

theorem hintsOf_saved (h : (saveHint sizes file call).1 = .ok ()) :
    hintsOf sizes (saveHint sizes file call).2 =
      record StoredHint.scope maxHints (hintsOf sizes file) call.hint := by
  rw [hintsOf, (saveHint_saved h).2, Option.getD_some]

theorem storedHint_self (h : (saveHint sizes file call).1 = .ok ()) :
    storedHint sizes (saveHint sizes file call).2 call.scope = some call.hint := by
  rw [storedHint, hintsOf_saved h]
  exact find_record_self distinct_hintsOf call.hint

/-- With room for the scope, the counts of others are kept. -/
theorem storedHint_of_ne (h : (saveHint sizes file call).1 = .ok ())
    (hroom : storedHint sizes file call.scope = none → (hintsOf sizes file).length ≠ maxHints)
    {scope : String} (hscope : scope ≠ call.scope) :
    storedHint sizes (saveHint sizes file call).2 scope = storedHint sizes file scope := by
  rw [storedHint, hintsOf_saved h]
  exact find_record_of_ne distinct_hintsOf hscope hroom

theorem loadHint_self (h : (saveHint sizes file call).1 = .ok ()) :
    loadHint sizes (saveHint sizes file call).2 call.scope =
      estimate sizes call.scope call.files call.directories := by
  have hread := (saveHint_saved h).2
  have hfind := storedHint_self h
  rw [storedHint, hintsOf, hread, Option.getD_some] at hfind
  have hfound : (record StoredHint.scope maxHints (hintsOf sizes file) call.hint).find?
      (·.scope = call.scope) = some call.hint := hfind
  rw [loadHint, hread]
  simp only [Option.bind_eq_bind, Option.bind_some, hfound]
  rfl

end Saves

/-! ## Runs -/

/-- Some save of the run succeeds. -/
def AnySaved (start : Option (List UInt8)) (calls : List SaveCall) : Prop :=
  ∃ before call after, calls = before ++ call :: after ∧
    (saveHint sizes (fileAfter sizes start before) call).1 = .ok ()

/-- The counts of the scope are those that the run changed longest ago. -/
def ChangedLongestAgo (start : Option (List UInt8)) (calls : List SaveCall) (scope : String) : Prop :=
  ∃ i, LastChange (fun calls ↦ storedHint sizes (fileAfter sizes start calls) scope) calls i ∧
    ∀ other, other ≠ scope → storedHint sizes (fileAfter sizes start calls) other ≠ none →
      ∃ j, LastChange (fun calls ↦ storedHint sizes (fileAfter sizes start calls) other) calls j ∧ i < j

section Runs

variable {sizes} {start : Option (List UInt8)} {calls : List SaveCall}

theorem fileAfter_concat (calls : List SaveCall) (call : SaveCall) :
    fileAfter sizes start (calls ++ [call]) = (saveHint sizes (fileAfter sizes start calls) call).2 := by
  rw [fileAfter, List.foldl_append]
  rfl

/-- The hints of the file are in the order of the last changes. -/
theorem inOrder_fileAfter (hstart : readHints sizes start = none) (calls : List SaveCall) :
    InOrder StoredHint.scope (fun scope calls ↦ storedHint sizes (fileAfter sizes start calls) scope) calls
      (hintsOf sizes (fileAfter sizes start calls)) := by
  induction calls using List.reverseRecOn with
  | nil =>
      have hnone : hintsOf sizes (fileAfter sizes start []) = [] := by
        rw [hintsOf, fileAfter, List.foldl_nil, hstart, Option.getD_none]
      rw [hnone]
      exact inOrder_nil
  | append_singleton calls call ih =>
      have hunchanged : fileAfter sizes start (calls ++ [call]) = fileAfter sizes start calls →
          InOrder StoredHint.scope (fun scope calls ↦ storedHint sizes (fileAfter sizes start calls) scope)
            (calls ++ [call]) (hintsOf sizes (fileAfter sizes start (calls ++ [call]))) := by
        intro hsame
        rw [hsame]
        exact ih.keep (List.Sublist.refl _) fun hint _ ↦ by rw [hsame]
      by_cases hsaved : (saveHint sizes (fileAfter sizes start calls) call).1 = .ok ()
      · by_cases hsame : storedHint sizes (fileAfter sizes start calls) call.scope = some call.hint
        · refine hunchanged ?_
          rw [fileAfter_concat, saveHint_eq, if_neg (saveHint_saved hsaved).1, if_pos hsame]
        · have hrecord : hintsOf sizes (fileAfter sizes start (calls ++ [call])) =
              others StoredHint.scope maxHints (hintsOf sizes (fileAfter sizes start calls)) call.scope ++
                [call.hint] := by
            rw [fileAfter_concat, hintsOf_saved hsaved]
            exact if_neg hsame
          rw [hrecord]
          refine ih.concat sublist_others (fun hint hhint ↦ ?_) ?_
          · have hbefore : storedHint sizes (fileAfter sizes start calls) hint.scope = some hint :=
              (find_eq_some_iff distinct_hintsOf).mpr ⟨sublist_others.subset hhint, rfl⟩
            have hafter : storedHint sizes (fileAfter sizes start (calls ++ [call])) hint.scope = some hint := by
              refine (find_eq_some_iff distinct_hintsOf).mpr ⟨?_, rfl⟩
              rw [hrecord]
              exact List.mem_append_left _ hhint
            exact hafter.trans hbefore.symm
          · have hself := storedHint_self hsaved
            rw [← fileAfter_concat] at hself
            exact fun heq ↦ hsame (heq.symm.trans hself)
      · exact hunchanged ((fileAfter_concat calls call).trans (saveHint_failed hsaved))

theorem exists_hints (h : AnySaved sizes start calls) :
    ∃ hints, readHints sizes (fileAfter sizes start calls) = some hints := by
  obtain ⟨before, call, after, rfl, hsaved⟩ := h
  induction after using List.reverseRecOn with
  | nil =>
      rw [fileAfter_concat]
      exact ⟨_, (saveHint_saved hsaved).2⟩
  | append_singleton after last ih =>
      obtain ⟨hints, hhints⟩ := ih
      rw [← List.cons_append, ← List.append_assoc, fileAfter_concat]
      by_cases hlast : (saveHint sizes (fileAfter sizes start (before ++ call :: after)) last).1 = .ok ()
      · exact ⟨_, (saveHint_saved hlast).2⟩
      · exact ⟨hints, by rw [saveHint_failed hlast, hhints]⟩

/-- A new scope takes the place of the one that changed longest ago, where all places are taken. -/
theorem exists_evicted (hstart : readHints sizes start = none) {call : SaveCall}
    (hsaved : (saveHint sizes (fileAfter sizes start calls) call).1 = .ok ())
    (hnew : storedHint sizes (fileAfter sizes start calls) call.scope = none)
    (hfull : (hintsOf sizes (fileAfter sizes start calls)).length = maxHints) :
    ∃ evicted, ChangedLongestAgo sizes start calls evicted ∧
      storedHint sizes (fileAfter sizes start calls) evicted ≠ none ∧
      storedHint sizes (saveHint sizes (fileAfter sizes start calls) call).2 evicted = none ∧
      ∀ other, other ≠ call.scope → other ≠ evicted →
        storedHint sizes (saveHint sizes (fileAfter sizes start calls) call).2 other =
          storedHint sizes (fileAfter sizes start calls) other := by
  have horder := inOrder_fileAfter hstart calls
  have hdistinct : Distinct StoredHint.scope (hintsOf sizes (fileAfter sizes start calls)) :=
    distinct_hintsOf
  have hrecord : ∀ scope, storedHint sizes (saveHint sizes (fileAfter sizes start calls) call).2 scope =
      find StoredHint.scope (record StoredHint.scope maxHints
        (hintsOf sizes (fileAfter sizes start calls)) call.hint) scope := fun scope ↦ by
    rw [storedHint, hintsOf_saved hsaved]
  cases hhints : hintsOf sizes (fileAfter sizes start calls) with
  | nil =>
      rw [hhints] at hfull
      cases hfull
  | cons first rest =>
      have hstored : ∀ scope, storedHint sizes (fileAfter sizes start calls) scope =
          find StoredHint.scope (first :: rest) scope := fun scope ↦ by rw [storedHint, hhints]
      rw [hhints] at horder hdistinct hfull
      rw [hstored] at hnew
      have hfirst : first.scope ≠ call.scope := find_eq_none_iff.mp hnew first List.mem_cons_self
      have hfind := fun {scope : String} (hscope : scope ≠ call.scope) ↦
        find_record_of_full (a := call.hint) hdistinct hnew hfull hscope
      refine ⟨first.scope, ?_, ?_, ?_, fun other hother hevicted ↦ ?_⟩
      · obtain ⟨i, hi⟩ := horder.changed first List.mem_cons_self
        refine ⟨i, hi, fun other hne hother ↦ ?_⟩
        obtain ⟨hint, hhint⟩ := Option.ne_none_iff_exists'.mp hother
        rw [hstored] at hhint
        obtain ⟨hmem, rfl⟩ := mem_of_find hhint
        obtain ⟨j, hj⟩ := horder.changed hint hmem
        rcases List.mem_cons.mp hmem with rfl | hmem
        · exact absurd rfl hne
        · exact ⟨j, hj, List.rel_of_pairwise_cons horder.ordered hmem i j hi hj⟩
      · rw [hstored, (find_eq_some_iff hdistinct).mpr ⟨List.mem_cons_self, rfl⟩]
        exact Option.some_ne_none first
      · rw [hrecord, hhints, hfind hfirst, if_pos rfl]
      · rw [hrecord, hhints, hfind hother, if_neg hevicted, hstored]

end Runs

/-- In every run from a missing or corrupt file. -/
theorem saveHint_run {start : Option (List UInt8)} (hstart : readHints sizes start = none)
    (calls : List SaveCall) (call : SaveCall) :
    let file := fileAfter sizes start calls
    let saved := saveHint sizes file call
    (AnySaved sizes start calls → ∃ hints, readHints sizes file = some hints ∧
      hints.length ≤ maxHints ∧ (hints.map StoredHint.scope).Nodup) ∧
    (saved.1 ≠ .ok () → saved.2 = file) ∧
    (saved.1 = .ok () →
      estimate sizes call.scope call.files call.directories ≠ none ∧
      loadHint sizes saved.2 call.scope = estimate sizes call.scope call.files call.directories ∧
      (¬ (storedHint sizes file call.scope = none ∧ (hintsOf sizes file).length = maxHints) →
        ∀ other, other ≠ call.scope → storedHint sizes saved.2 other = storedHint sizes file other) ∧
      (storedHint sizes file call.scope = none → (hintsOf sizes file).length = maxHints →
        ∃ evicted, ChangedLongestAgo sizes start calls evicted ∧ storedHint sizes file evicted ≠ none ∧
          storedHint sizes saved.2 evicted = none ∧
          ∀ other, other ≠ call.scope → other ≠ evicted →
            storedHint sizes saved.2 other = storedHint sizes file other)) := by
  refine ⟨fun hany ↦ ?_, saveHint_failed, fun hsaved ↦ ⟨(saveHint_saved hsaved).1, loadHint_self hsaved,
    fun hroom other hother ↦ ?_, exists_evicted hstart hsaved⟩⟩
  · obtain ⟨hints, hhints⟩ := exists_hints hany
    exact ⟨hints, hhints, (storable_of_readHints hhints).room, (storable_of_readHints hhints).distinct⟩
  · exact storedHint_of_ne hsaved (fun hnew hfull ↦ hroom ⟨hnew, hfull⟩) hother

/-- Saves of different scopes are all kept while there is room. -/
theorem hintsOf_fileAfter_distinct {start : Option (List UInt8)} (hstart : readHints sizes start = none)
    {calls : List SaveCall} (hdistinct : (calls.map SaveCall.scope).Nodup)
    (hlength : calls.length ≤ maxHints)
    (hallowed : ∀ call ∈ calls, estimate sizes call.scope call.files call.directories ≠ none ∧
      call.replaces = true) :
    hintsOf sizes (fileAfter sizes start calls) = calls.map SaveCall.hint := by
  induction calls using List.reverseRecOn with
  | nil => rw [hintsOf, fileAfter, List.foldl_nil, hstart, Option.getD_none, List.map_nil]
  | append_singleton calls call ih =>
      rw [List.map_append, List.map_singleton, List.nodup_append] at hdistinct
      obtain ⟨hbefore, -, hnew⟩ := hdistinct
      rw [List.length_append, List.length_singleton] at hlength
      have hhints := ih hbefore (by omega) fun other hother ↦
        hallowed other (List.mem_append_left _ hother)
      obtain ⟨hestimate, hreplaces⟩ :=
        hallowed call (List.mem_append_right _ (List.mem_singleton_self call))
      have hnone : storedHint sizes (fileAfter sizes start calls) call.scope = none := by
        rw [storedHint, hhints]
        refine find_eq_none_iff.mpr fun hint hhint ↦ ?_
        obtain ⟨other, hother, rfl⟩ := List.mem_map.mp hhint
        exact hnew _ (List.mem_map_of_mem hother) _ (List.mem_singleton_self _)
      have hsaved : (saveHint sizes (fileAfter sizes start calls) call).1 = .ok () := by
        rw [saveHint_eq, if_neg hestimate, hnone, if_neg (by simp), if_pos hreplaces]
      rw [storedHint, hhints] at hnone
      have hscope : call.hint.scope = call.scope := rfl
      have hroom : ¬ (calls.map SaveCall.hint).length = maxHints := by
        rw [List.length_map]
        omega
      rw [fileAfter_concat, hintsOf_saved hsaved, hhints, record, hscope, hnone, if_neg (by simp), others,
        hnone, if_neg (by simp), if_neg hroom, List.map_append, List.map_singleton]

/-- So many scopes that there is no room for another. -/
def fullRun : List SaveCall :=
  (List.range maxHints).map fun n ↦ ⟨.ofList (List.replicate (n + 1) 'a'), 100, 10, true⟩

theorem saveHint_run_full :
    ∃ evicted, ChangedLongestAgo ⟨200, 150⟩ none fullRun evicted ∧
      storedHint ⟨200, 150⟩ (fileAfter ⟨200, 150⟩ none fullRun) evicted ≠ none ∧
      storedHint ⟨200, 150⟩ (saveHint ⟨200, 150⟩ (fileAfter ⟨200, 150⟩ none fullRun)
        ⟨"C:", 100, 10, true⟩).2 evicted = none := by
  have hhints : hintsOf ⟨200, 150⟩ (fileAfter ⟨200, 150⟩ none fullRun) = fullRun.map SaveCall.hint :=
    hintsOf_fileAfter_distinct _ rfl (by decide +kernel) (by decide) (by decide +kernel)
  have hnew : storedHint ⟨200, 150⟩ (fileAfter ⟨200, 150⟩ none fullRun) "C:" = none := by
    rw [storedHint, hhints]
    decide +kernel
  have hsaved : (saveHint ⟨200, 150⟩ (fileAfter ⟨200, 150⟩ none fullRun) ⟨"C:", 100, 10, true⟩).1 =
      .ok () := by
    rw [saveHint_eq, hnew, if_neg (by decide +kernel), if_neg (by simp), if_pos rfl]
  obtain ⟨evicted, hlongest, hstored, hgone, -⟩ :=
    ((@saveHint_run ⟨200, 150⟩ none rfl fullRun ⟨"C:", 100, 10, true⟩).2.2 hsaved).2.2.2 hnew
      (by rw [hhints]; decide)
  exact ⟨evicted, hlongest, hstored, hgone⟩

end CapacityHints

end WinBlaze
