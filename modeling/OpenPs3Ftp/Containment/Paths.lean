import OpenPs3Ftp.WorkingDirectory

/-! Canonical paths: absolute texts of components that are neither empty nor dots.
The resolver yields them, parents and visible directories stay canonical, and the
wrapper's textual check means on them what it says. -/
namespace OpenPs3Ftp.Containment
open Lib Text Resolve Fs Session Commands WorkingDirectory

def Canonical (path : Bytes) : Prop := ∃ comps, path = absolute comps ∧ ∀ c ∈ comps, Clean c

def Inside (root path : Bytes) : Prop :=
  path = root ∨ ∃ comps, comps ≠ [] ∧ (∀ c ∈ comps, Clean c) ∧ path = chop root ++ separated slash comps

variable {comps : List Bytes}

theorem lastByte (valid : ∀ c ∈ comps, Component c) (some_ : comps ≠ []) :
    (separated slash comps).getLast? ≠ some slash := by
  obtain ⟨front,last,rfl⟩ : ∃ front last, comps = front ++ [last] := ⟨_,_,(List.dropLast_append_getLast some_).symm⟩
  obtain ⟨nonempty,free⟩ := valid last (by simp)
  rw [separatedAppend,separatedCons,separatedNil,List.append_nil,List.getLast?_append,List.getLast?_cons,
    List.getLast?_eq_some_getLast nonempty]
  simp only [Option.getD_some,Option.some_or,ne_eq,Option.some.injEq]
  exact fun same => free (same ▸ List.getLast_mem nonempty)

theorem chopAbsolute (valid : ∀ c ∈ comps, Component c) :
    chop (absolute comps) = separated slash comps := by
  unfold absolute
  split
  · simp_all [chop]
  · rename_i full
    rw [chop,if_neg (lastByte valid full)]

theorem rootedAbsolute {root} (valid : ∀ c ∈ root, Component c) :
    rooted (absolute root) comps = absolute (root ++ comps) := by
  rw [rooted,topAccepted (absoluteHead root),chopAbsolute valid]
  cases comps with
  | nil => simp
  | cons c comps =>
    rw [if_neg (by simp),absolute,if_neg (by simp),separatedAppend]

variable {root : Bytes}

theorem canonicalRooted (canonical : Canonical root)
    (clean : ∀ c ∈ comps, Clean c) : Canonical (rooted root comps) := by
  obtain ⟨names,rfl,valid⟩ := canonical
  exact ⟨names ++ comps,rootedAbsolute fun c member => (valid c member).1,List.forall_mem_append.mpr ⟨valid,clean⟩⟩

variable {path : Bytes}

theorem canonicalFields (canonical : Canonical path) : ∀ c ∈ fields slash path, Clean c := by
  obtain ⟨comps,rfl,clean⟩ := canonical
  rwa [fieldsAbsolute fun c member => (clean c member).1]

theorem canonicalResolved {s c param} (root : Canonical s.root.text) (cwd : Canonical c.cwd.text)
    (resolved : resolveArg s c param = some path) : Canonical path := by
  rw [resolveArgEq] at resolved
  split at resolved
  · cases Option.some.inj resolved
    exact canonicalRooted root (resolvedKeeps _ _ _ (fun _ _ clean => clean) (canonicalFields cwd))
  · contradiction

theorem canonicalTidy (canonical : Canonical root) (dir) : Tidy root dir := by
  obtain ⟨comps,rfl,clean⟩ := canonical
  by_cases top : comps = []
  · exact .inr (.inl (by simp [absolute,top]))
  · refine .inr (.inr ?_)
    rw [absolute,if_neg top]
    exact lastByte (fun c member => (clean c member).1) top

theorem canonicalVisible {s c param} (root : Canonical s.root.text) (cwd : Canonical c.cwd.text)
    (resolved : resolveArg s c param = some path) : Canonical (visible s.root.text path) := by
  rw [resolveArgEq] at resolved
  split at resolved
  · cases Option.some.inj resolved
    have clean : ∀ name ∈ resolvedStack s.root.text c.cwd.text (argText c param), Clean name :=
      resolvedKeeps _ _ _ (fun _ _ clean => clean) (canonicalFields cwd)
    obtain ⟨names,same,_⟩ := root
    rw [visibleRooted (by rw [same]; exact absoluteHead names) clean (canonicalTidy ⟨names,same,‹_›⟩ _)]
    exact ⟨_,rfl,clean⟩
  · contradiction

theorem trimAbsolute (valid : ∀ c ∈ comps, Component c) :
    trimSlashes (absolute comps) = absolute comps := by
  by_cases top : comps = []
  · subst top
    decide
  have whole : (absolute comps).rdropWhile (· = slash) = absolute comps := by
    rw [List.rdropWhile_eq_self_iff]
    intro nonempty ends
    rw [absolute,if_neg top] at nonempty
    have last := lastByte valid top
    rw [List.getLast?_eq_some_getLast nonempty] at last
    simp_all [absolute]
  have nonempty : absolute comps ≠ [] := by simp [absolute,top,separatedEmpty]
  rw [trimSlashes,whole,if_neg nonempty]

theorem leadAppend (front) {last} (free : slash ∉ last) :
    (front ++ slash :: last).rdropWhile (· ≠ slash) = front ++ [slash] := by
  have others : ∀ b ∈ last.reverse, decide (b ≠ slash) = true := by
    intro b member
    simp only [decide_eq_true_eq]
    rintro rfl
    exact free (List.mem_reverse.mp member)
  rw [List.rdropWhile,List.reverse_append,List.reverse_cons,List.append_assoc,List.dropWhile_append_of_pos others]
  simp

theorem parentAbsolute {parent size} (valid : ∀ c ∈ comps, Component c)
    (found : pathParent (absolute comps) size = some parent) (some_ : parent ≠ []) :
    parent = absolute comps.dropLast := by
  have refused : ∀ small : Bool, (if small then none else some []) = some parent → False := by
    intro small same
    cases small with
    | true => contradiction
    | false => exact some_ (Option.some.inj same).symm
  unfold pathParent at found
  split at found
  · exact (refused (size < 1) (by simpa using found)).elim
  rename_i long
  have full : comps ≠ [] := by
    rintro rfl
    exact long (by decide)
  obtain ⟨front,last,rfl⟩ : ∃ front last, comps = front ++ [last] := ⟨_,_,(List.dropLast_append_getLast full).symm⟩
  have text : absolute (front ++ [last]) = separated slash front ++ slash :: last := by
    rw [absolute,if_neg (by simp),separatedAppend]
    simp
  rw [trimAbsolute valid,text,leadAppend _ (valid last (by simp)).2] at found
  simp only [List.append_eq_nil_iff,List.cons_ne_self,and_false,if_false,List.length_append,
    List.length_singleton,Nat.add_sub_cancel] at found
  rw [List.dropLast_concat]
  cases front with
  | nil =>
    simp only [separatedNil,List.length_nil,if_true] at found
    split at found
    · contradiction
    · cases Option.some.inj found
      simp [absolute]
  | cons c front =>
    have longer : (separated slash (c :: front)).length ≠ 0 := by simp
    rw [if_neg longer] at found
    split at found
    · contradiction
    · cases Option.some.inj found
      rw [absolute,if_neg (by simp),List.take_left]

theorem canonicalParent {parent size} (canonical : Canonical path) (found : pathParent path size = some parent)
    (some_ : parent ≠ []) : Canonical parent := by
  obtain ⟨comps,rfl,clean⟩ := canonical
  refine ⟨comps.dropLast,parentAbsolute (fun c member => (clean c member).1) found some_,fun c member => ?_⟩
  exact clean c (List.dropLast_subset _ member)

theorem insideUnder (canonicalRoot : Canonical root) (canonical : Canonical path)
    (under : underRoot root path = true) : Inside root path := by
  obtain ⟨names,rfl,validRoot⟩ := canonicalRoot
  obtain ⟨comps,rfl,clean⟩ := canonical
  have valid : ∀ c ∈ comps, Component c := fun c member => (clean c member).1
  have validNames : ∀ c ∈ names, Component c := fun c member => (validRoot c member).1
  rw [Inside,chopAbsolute validNames]
  by_cases top : names = []
  · subst top
    by_cases empty : comps = []
    · exact .inl (by rw [empty])
    · exact .inr ⟨comps,empty,clean,by rw [absolute,if_neg empty,separatedNil,List.nil_append]⟩
  obtain ⟨rest,split⟩ : ∃ rest, absolute comps = absolute names ++ rest := by
    unfold underRoot at under
    split at under
    · contradiction
    · rename_i same
      simp only [ne_eq,not_not] at same
      exact ⟨_,by rw [← same]; exact (List.take_append_drop _ _).symm⟩
  cases rest with
  | nil => exact .inl (by simpa using split)
  | cons b rest =>
    have next : b = slash := by
      have long : (absolute names).length ≠ 1 := by
        rw [absolute,if_neg top]
        cases names with
        | nil => exact absurd rfl top
        | cons c names =>
          have positive := List.length_pos_iff.mpr (validNames c (by simp)).1
          simp only [separatedCons,List.length_cons,List.length_append]
          omega
      simpa [underRoot,split,long] using under
    subst next
    have parts : comps = names ++ fields slash rest := by
      rw [← fieldsAbsolute valid,split,fieldsAppendSep,fieldsAbsolute validNames]
    refine .inr ⟨fields slash rest,?_,fun c member => clean c (by rw [parts]; simp [member]),?_⟩
    · intro empty
      rw [empty,List.append_nil] at parts
      rw [parts] at split
      exact absurd (List.append_cancel_left (split.symm.trans (List.append_nil _).symm)) (by simp)
    · rw [parts,absolute,if_neg (by simp [top]),separatedAppend]

theorem fsRootedCanonical {posix root r} (canonical : Canonical root.text) (made : fsRooted posix root.text = some r) :
    r.root = root := by
  obtain ⟨names,same,clean⟩ := canonical
  have kept : trimSlashes root.text = root.text := by
    rw [same]
    exact trimAbsolute fun c member => (clean c member).1
  unfold fsRooted at made
  split at made
  · contradiction
  cases Option.some.inj made
  refine Buffer.ext ?_
  show trimSlashes (Buffer.print 1023 root.text).text = root.text
  rw [Buffer.printSelf,kept]

end OpenPs3Ftp.Containment
