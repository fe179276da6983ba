import Formulary.LogPath
import Mathlib.Data.List.Infix

/-!
# Which log files are opened

Going down to a file stops at the first name that is no directory. So the file of a path
is opened just if it lies where the path leads, in directories that are all there, and nothing
but a file is in its place (`target_eq_ok_iff`). Files that were opened before do not matter to
that, only to why another one cannot be opened. Who looks for the file at the same path finds this
one or none (`eq_of_find?_of_target`).
-/

namespace Formulary

theorem LogFile.place_inj {f g : LogFile} : f.place = g.place ↔ f = g := by
  refine ⟨fun h => ?_, congrArg place⟩
  obtain ⟨hdirectory, hname⟩ := List.append_inj' h rfl
  rw [LogFile.mk.injEq]
  exact ⟨hdirectory, List.head_eq_of_cons_eq hname⟩

namespace Disk

/-- Whether a file can be opened: every directory on the way to it is there, and at its own place
there is no directory and nothing that keeps from writing. -/
structure Opens (d : Disk) (file : LogFile) : Prop where
  reached : ∀ p, p <+: file.directory → d.isDirectory p = true
  free : d.isDirectory file.place = false
  unlocked : d.isLocked file.place = false

variable {d : Disk} {opened : LogFile → Bool}

theorem isDirectory_top (d : Disk) : d.isDirectory [] = true := rfl

/-- Nothing stops one who goes down if every name on the way leads to a directory. -/
theorem obstacle?_eq_none_iff {reached : Place} {names : List String} :
    d.obstacle? opened reached names = none ↔
      ∀ p, p ≠ [] → p <+: names → d.isDirectory (reached ++ p) = true := by
  induction names generalizing reached with
  | nil =>
      refine iff_of_true rfl fun p hne hp => ?_
      exact absurd (List.prefix_nil.mp hp) hne
  | cons name names ih =>
      by_cases hname : d.isDirectory (reached ++ [name]) = true
      · rw [obstacle?, if_pos hname, ih]
        constructor
        · rintro h p hne hp
          obtain rfl | ⟨q, rfl, hq⟩ := List.prefix_cons_iff.mp hp
          · exact absurd rfl hne
          · rw [List.append_cons]
            by_cases hq' : q = []
            · rw [hq', List.append_nil]
              exact hname
            · exact h q hq' hq
        · intro h q hne hq
          rw [List.append_assoc]
          exact h (name :: q) (List.cons_ne_nil name q) (List.cons_prefix_cons.mpr ⟨rfl, hq⟩)
      · rw [obstacle?, if_neg hname]
        refine iff_of_false ?_ fun h => hname ?_
        · split <;> exact Option.some_ne_none _
        · exact h [name] (List.cons_ne_nil name []) (List.cons_prefix_cons.mpr ⟨rfl, List.nil_prefix⟩)

theorem fault?_eq_none_iff {file : LogFile} : d.fault? opened file = none ↔ d.Opens file := by
  have hobstacle : d.obstacle? opened [] file.directory = none ↔
      ∀ p, p <+: file.directory → d.isDirectory p = true := by
    refine obstacle?_eq_none_iff.trans ⟨fun h p hp => ?_, fun h p _ hp => h p hp⟩
    by_cases hne : p = []
    · rw [hne, isDirectory_top]
    · exact h p hne hp
  rw [fault?]
  cases hreached : d.obstacle? opened [] file.directory with
  | some fault =>
      refine iff_of_false (Option.some_ne_none fault) fun h => ?_
      rw [hobstacle.mpr h.reached] at hreached
      cases hreached
  | none =>
      dsimp only
      constructor
      · intro h
        split at h
        · cases h
        · next hfree =>
            split at h
            · cases h
            · next hunlocked =>
                exact ⟨hobstacle.mp hreached, Bool.eq_false_iff.mpr hfree,
                  Bool.eq_false_iff.mpr hunlocked⟩
      · rintro ⟨-, hfree, hunlocked⟩
        rw [hfree, hunlocked, if_neg Bool.false_ne_true, if_neg Bool.false_ne_true]

/-- **Opening.** The file that is opened for a path is the one where the path leads, if that can be
opened. -/
theorem target_eq_ok_iff {path : LogPath} {file : LogFile} :
    d.target opened path = .ok file ↔ file.place = d.place path ∧ d.Opens file := by
  rw [target]
  cases hlast : (d.place path).getLast? with
  | none =>
      -- the path leads to the top
      refine iff_of_false (fun h => by cases h) ?_
      rintro ⟨hplace, -⟩
      rw [List.getLast?_eq_none_iff.mp hlast] at hplace
      exact List.append_ne_nil_of_right_ne_nil _ (List.cons_ne_nil _ _) hplace
  | some name =>
      obtain ⟨directory, hplace⟩ := List.getLast?_eq_some_iff.mp hlast
      have hfile : file.place = directory ++ [name] ↔ file = ⟨directory, name⟩ :=
        LogFile.place_inj (g := ⟨directory, name⟩)
      rw [hplace, List.dropLast_concat, hfile]
      dsimp only
      cases hfault : d.fault? opened ⟨directory, name⟩ with
      | some fault =>
          refine iff_of_false (fun h => by cases h) ?_
          rintro ⟨rfl, hopens⟩
          rw [fault?_eq_none_iff.mpr hopens] at hfault
          cases hfault
      | none =>
          rw [Except.ok.injEq, eq_comm]
          refine (and_iff_left_of_imp ?_).symm
          rintro rfl
          exact fault?_eq_none_iff.mp hfault

/-! ## Finding a file again -/

theorem foldl_follow_of_foldlM {parts : List String} {start reached : Place}
    (h : parts.foldlM d.enter? start = some reached) :
    parts.foldl LogPath.follow start = reached := by
  induction parts generalizing start with
  | nil => exact Option.some.inj h
  | cons part parts ih =>
      rw [List.foldlM_cons] at h
      obtain ⟨next, hnext, hrest⟩ := Option.bind_eq_some_iff.mp h
      rw [enter?] at hnext
      split at hnext
      · cases hnext
        rw [List.foldl_cons]
        exact ih hrest
      · cases hnext

/-- Whoever follows a path step by step comes to where it leads, if anywhere. -/
theorem place_of_find? {path : LogPath} {file : LogFile} (h : d.find? path = some file) :
    file.place = d.place path := by
  rw [find?] at h
  split at h
  · cases h
  · next name hlast =>
      split at h
      · next hname =>
          obtain ⟨directory, hwalk, rfl⟩ := Option.map_eq_some_iff.mp h
          obtain ⟨parts, hparts⟩ := List.getLast?_eq_some_iff.mp hlast
          rw [hparts, List.dropLast_concat] at hwalk
          rw [LogFile.place, place, hparts, List.foldl_concat, foldl_follow_of_foldlM hwalk,
            LogPath.follow, if_pos hname]
      · cases h

/-- **Finding.** What is found at a path is the file that was opened for it. -/
theorem eq_of_find?_of_target {path : LogPath} {file found : LogFile}
    (hopened : d.target opened path = .ok file) (hfound : d.find? path = some found) :
    found = file := by
  obtain ⟨hplace, -⟩ := target_eq_ok_iff.mp hopened
  exact LogFile.place_inj.mp ((place_of_find? hfound).trans hplace.symm)

end Disk
end Formulary
