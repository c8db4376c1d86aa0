import OpenPs3Ftp.Copying.Growth

/-! The walk of a tree copy. It takes directories off a stack, copies the files of each and
pushes its subdirectories; on a source that stays as it is, what is under the directories on
the stack gets less with each of them. -/
namespace OpenPs3Ftp.Copying
open Lib Text Resolve Fs Session Worker
open Setting (leavesPure leavesAsk leavesThen leavesVia leavesWithin leavesPost)

def item (names : List Bytes) : CopyDir := ⟨relText names,names.length⟩

noncomputable def weigh (T : Tree) (s : Place) (rels : List Place) : Nat := (rels.map fun r => T.size (s ++ r)).sum

instance lawfulBytes : LawfulBEq Bytes := inferInstance

def dotsLeft (given : List Bytes) : Nat := ([ascii ".",ascii ".."].filter (· ∉ given)).length
def Deep (T : Tree) (s : Place) : Prop := ∃ rel, T.node (s ++ rel) = some .dir ∧ copyMaxDepth ≤ rel.length

def Fails (T : Tree) (s : Place) (st : Diary) (e : Errno) : Prop :=
  st.2.faulty = true ∨ (e = .eloop ∧ Deep T s) ∨ e = .enametoolong

structure Enough (rounds : Nat) (T : Tree) : Prop where
  buffer : transferBuf < rounds
  files : ∀ p whole, T.node p = some (.file whole) → whole.length < rounds
  entries : T.size [] + 2 < rounds

def Going (T : Tree) (s d : Place) (rest : Place → Prop) (extra bound : Nat) (t : Tree) (w : Walk) : Prop :=
  ∃ rels moved, w = ⟨rels.map item,moved,none⟩ ∧ Walks T s d t rels rest ∧ (Apart s d → weigh T s rels + extra ≤ bound)

theorem dotsLess (given name) : dotsLeft (name :: given) ≤ dotsLeft given := by
  unfold dotsLeft
  refine (List.monotone_filter_right _ fun dot new => ?_).length_le
  simp only [decide_eq_true_eq] at new ⊢
  exact fun member => new (List.mem_cons_of_mem _ member)

theorem dotsRead {given name} (dot : dots name = true) (new : name ∉ given) :
    dotsLeft (name :: given) < dotsLeft given := by
  have two : ascii "." ≠ ascii ".." := by decide
  rcases of_decide_eq_true dot with rfl | rfl
  · by_cases other : ascii ".." ∈ given <;> simp [dotsLeft,new,other,two.symm]
  · by_cases other : ascii "." ∈ given <;> simp [dotsLeft,new,other,two]

variable {st : Diary} {w : Walk}

section Walk
variable {ends : Prop} {rounds : Nat} {T : Tree} {s d : Place} {source : Bytes} {cur : Place} {rels : List Place}

theorem ensureWalks {dst} (st) (walks : Walks T s d st.1.tree (cur :: rels) fun _ => False)
    (leads : locate dst = d ++ cur) :
    (keeping source).Leaves (fun _ => ¬ ends) (fun st' rc => st'.1.scans = st.1.scans ∧
      (rc = none → Walks T s d st'.1.tree rels (Unread cur [])) ∧ (rc ≠ none → st'.2.faulty = true)) st (ensureDir dst) := by
  obtain ⟨dir,shallow⟩ := walks.stack cur List.mem_cons_self
  refine leavesAsk fun answer possible => ?_
  match answer,possible with
  | .ok stat,possible =>
    have shows : Shows st.1.tree (locate dst) stat.mode := possible
    have there : st.1.tree.node (d ++ cur) ≠ none := by
      intro absent
      rw [Shows,leads,absent] at shows
      contradiction
    refine leavesPure ⟨rfl,fun _ => ?_,fun code => absurd rfl code⟩
    exact walks.opens (dirDone walks.grown dir there shallow)
  | .error e,_ =>
    refine leavesAsk fun made possible => ?_
    match made,possible with
    | .error e,_ => exact leavesPure ⟨rfl,nofun,fun _ => faultNoted (.fs (.mkdir dst 0o755)) (.error e) rfl⟩
    | .ok (),possible =>
      have free : st.1.tree.Free (d ++ cur) := leads ▸ possible
      have placed := madePlaced free
      have done : Done T s d (st.1.tree.make (d ++ cur) .dir) cur := by
        refine dirDone walks.grown dir ?_ shallow
        rw [Hierarchy.nodeMake,if_pos ⟨free,rfl⟩]
        exact nofun
      refine leavesPure ⟨rfl,fun _ => ?_,fun code => absurd rfl code⟩
      show Walks T s d (st.1.tree.make (locate dst) .dir) rels (Unread cur [])
      rw [leads]
      exact (walks.placed dir nofun placed done).opens done

theorem fileWalks {rest src dst rel moved} (walks : Walks T s d st.1.tree rels rest)
    (file : st.1.tree.kindAt (s ++ rel) = some .file) (leaves : locate src = s ++ rel) (leads : locate dst = d ++ rel)
    (enough : ends → Apart s d ∧ Enough rounds T) :
    (keeping source).Leaves (fun _ => ¬ ends) (fun st' result => st'.1.scans = st.1.scans ∧
      (result.2 = none → Walks T s d st'.1.tree rels rest ∧ st'.1.tree.kindAt (s ++ rel) = some .file ∧
        Done T s d st'.1.tree rel) ∧
      (result.2 ≠ none → st'.2.faulty = true)) st (copyFile rounds src dst moved) := by
  refine leavesPost ?_ (fileFiled source ends src dst moved st fun yes => ?_)
  · rintro st' ⟨moved',rc⟩ ⟨scans,opened,removed,w,filed,_,bad⟩
    refine ⟨scans,?_,bad⟩
    rintro rfl
    generalize st'.1.tree = after at filed
    rw [leaves,leads] at filed
    cases filed with
    | unopened failed | removed opens failed => exact absurd rfl failed
    | kept opens whole =>
      have placed := keptPlaced opens w
      have done := fileDone walks.grown file opens (whole rfl)
      exact ⟨walks.placed file nofun placed done,placed.onward file,done⟩
  obtain ⟨apart,enough⟩ := enough yes
  obtain ⟨whole,same⟩ := Hierarchy.kindFile.mp file
  rw [leaves,leads]
  refine ⟨enough.buffer,apart.places rel rel,whole,same,?_⟩
  rw [walks.grown.source apart rel] at same
  exact enough.files _ whole same

variable {j : Job} {given : List Bytes}

theorem entryWalks {de bound} (st) (named : ∀ name ∈ cur, Named name)
    (going : Going T (origin j) (target j) (Unread cur given) (T.left (origin j ++ cur) given + 1)
      bound st.1.tree w) (new : de.name.text ∉ given)
    (kind : st.1.tree.kindAt (origin j ++ (cur ++ [de.name.text])) = some (shown de.mode))
    (enough : ends → Apart (origin j) (target j) ∧ Enough rounds T) :
    (keeping source).Leaves (fun _ => ¬ ends) (fun st' next => Sum.elim
      (fun w' => st'.1.scans = st.1.scans ∧ Going T (origin j) (target j)
        (Unread cur (de.name.text :: given)) (T.left (origin j ++ cur) (de.name.text :: given) + 1)
        bound st'.1.tree w')
      (fun w' => ∃ e, w'.rc = some e ∧
        (Apart (origin j) (target j) → Fails T (origin j) st' e)) next) st
      (copyEntry rounds j (item cur) de w) := by
  obtain ⟨rels,moved,rfl,walks,weight⟩ := going
  generalize leaves : origin j = s at *
  generalize leads : target j = d at *
  have less := T.leftSeen (s ++ cur) new
  have name : Named de.name.text := by
    refine Hierarchy.validAll (t := st.1.tree) (p := s ++ (cur ++ [de.name.text])) ?_ _ (by simp)
    rw [ne_eq,← Hierarchy.kindNone,kind]
    exact nofun
  unfold copyEntry
  split
  · exact leavesPure ⟨_,rfl,fun _ => .inr (.inr rfl)⟩
  rename_i child made
  have child_ : child = relText (cur ++ [de.name.text]) := childLocates named made
  split
  · rename_i dir
    have kind : st.1.tree.kindAt (s ++ (cur ++ [de.name.text])) = some .dir := by
      rw [kind,shown,if_pos dir]
    split
    · rename_i deep
      refine leavesPure ⟨_,rfl,fun apart => .inr (.inl ⟨rfl,cur ++ [de.name.text],?_,?_⟩)⟩
      · rw [← walks.grown.source apart]
        exact Hierarchy.kindDir.mp kind
      · rw [List.length_append]
        exact deep
    rename_i shallow
    refine leavesAsk fun made _ => ?_
    cases made with
    | false => exact leavesPure ⟨_,rfl,fun _ => .inl (faultNoted .malloc false rfl)⟩
    | true =>
      refine leavesPure ⟨rfl,(cur ++ [de.name.text]) :: rels,moved,?_,walks.push kind ?_,fun apart => ?_⟩
      · simp [child_,item]
      · rw [List.length_append]
        exact Nat.lt_of_not_le shallow
      have sum : weigh T s ((cur ++ [de.name.text]) :: rels) = T.size (s ++ (cur ++ [de.name.text])) + weigh T s rels := by
        simp [weigh]
      have before := weight apart
      rw [sum,← List.append_assoc]
      omega
  rename_i leaf
  have lighter : Apart s d → weigh T s rels + (T.left (s ++ cur) (de.name.text :: given) + 1) ≤ bound := by
    intro apart
    have before := weight apart
    omega
  split
  · rename_i reg
    have kind : st.1.tree.kindAt (s ++ (cur ++ [de.name.text])) = some .file := by
      rw [kind,shown,if_neg leaf,if_pos reg]
    have named' : ∀ name ∈ cur ++ [de.name.text], Named name :=
      List.forall_mem_append.mpr ⟨named,List.forall_mem_singleton.mpr name⟩
    split
    · rename_i src dst fromSrc toDst
      rw [child_] at fromSrc toDst
      have leaves : locate src = s ++ (cur ++ [de.name.text]) := (joinLocates named' fromSrc).trans (congrArg (· ++ _) leaves)
      have leads : locate dst = d ++ (cur ++ [de.name.text]) := (joinLocates named' toDst).trans (congrArg (· ++ _) leads)
      refine leavesThen (fileWalks walks kind leaves leads enough) ?_
      rintro st' ⟨moved',rc⟩ ⟨scans,good,bad⟩
      cases rc with
      | some e => exact leavesPure ⟨e,rfl,fun _ => .inl (bad nofun)⟩
      | none =>
        obtain ⟨walks,file,done⟩ := good rfl
        exact leavesPure ⟨scans,rels,moved',rfl,walks.leaf file nofun done,lighter⟩
    · exact leavesPure ⟨_,rfl,fun _ => .inr (.inr rfl)⟩
  rename_i special
  have kind : st.1.tree.kindAt (s ++ (cur ++ [de.name.text])) = some .other := by
    rw [kind,shown,if_neg leaf,if_neg special]
  exact leavesPure ⟨rfl,rels,moved,rfl,walks.leaf kind nofun (otherDone walks.grown kind),lighter⟩

def Reading (T : Tree) (s d cur : Place) (dir : Fd) (bound n : Nat) (st : Diary) (w : Walk) : Prop :=
  ∃ given start, st.1.scans dir = some ⟨s ++ cur,given,start⟩ ∧ Grown T s d start ∧
    Going T s d (Unread cur given) (T.left (s ++ cur) given + 1) bound st.1.tree w ∧
    T.left (s ++ cur) given + dotsLeft given ≤ n

def Ends (T : Tree) (s d : Place) (good : Prop) (st : Diary) (rc : Rc) : Prop :=
  (rc = none → good) ∧ ∀ e, rc = some e → Apart s d → Fails T s st e

theorem endsWell {good : Prop} (held : good) : Ends T s d good st none := ⟨fun _ => held,nofun⟩

theorem endsBadly {good : Prop} {e} (fails : Apart s d → Fails T s st e) : Ends T s d good st (some e) := by
  refine ⟨nofun,fun e' same => ?_⟩
  cases same
  exact fails

theorem dirWalks {dir bound n} (named : ∀ name ∈ cur, Named name)
    (reading : Reading T (origin j) (target j) cur dir bound n st w)
    (enough : ends → Apart (origin j) (target j) ∧ Enough rounds T) :
    (keeping source).Leaves (fun _ => ¬ ends) (fun st' next => Sum.elim
      (fun w' => ∃ n', Reading T (origin j) (target j) cur dir bound n' st' w' ∧ (ends → n' < n))
      (fun w' => Ends T (origin j) (target j)
        (Going T (origin j) (target j) (fun _ => False) 1 bound st'.1.tree w') st' w'.rc) next) st
      (copyDirRound rounds j (item cur) dir w) := by
  obtain ⟨given,start,scan,begun,going,measure⟩ := reading
  generalize leaves : origin j = s at *
  generalize leads : target j = d at *
  refine leavesAsk fun seen _ => ?_
  cases seen with
  | true => exact leavesPure (endsBadly fun _ => .inl (faultNoted .cancelled true rfl))
  | false =>
    refine leavesAsk fun answer possible => ?_
    match answer,possible with
    | .error e,_ => exact leavesPure (endsBadly fun _ => .inl (faultNoted (.fs (.readdir dir)) (.error e) rfl))
    | .ok none,possible =>
      obtain ⟨scan',found,all⟩ := possible
      cases found.symm.trans scan
      obtain ⟨rels,moved,rfl,walks,weight⟩ := going
      refine leavesPure (endsWell ⟨rels,moved,rfl,walks.closes begun all,fun apart => ?_⟩)
      have before := weight apart
      omega
    | .ok (some de),possible =>
      obtain ⟨scan',found,new,there⟩ := possible
      cases found.symm.trans scan
      dsimp only at new there
      have less := T.leftSeen (s ++ cur) new
      have given' : (st.1.after (.readdir dir) (.ok (some de))).scans dir =
          some ⟨s ++ cur,de.name.text :: given,start⟩ := by
        show Function.update st.1.scans dir _ dir = _
        rw [Function.update_self,scan]
        rfl
      dsimp only
      split
      · rename_i dot
        have fewer := dotsRead dot new
        obtain ⟨rels,moved,rfl,walks,weight⟩ := going
        have unnamed : ¬ Named de.name.text := fun named => by
          rcases of_decide_eq_true dot with same | same
          · exact named.1.2.1 same
          · exact named.1.2.2 same
        refine leavesPure ⟨_,⟨de.name.text :: given,start,given',begun,⟨rels,moved,rfl,walks.dot unnamed,fun apart => ?_⟩,
          Nat.le_refl _⟩,fun _ => ?_⟩
        · have before := weight apart
          omega
        · omega
      rename_i word
      have shows := there.resolve_left word
      have kind : st.1.tree.kindAt (s ++ (cur ++ [de.name.text])) = some (shown de.mode) := by
        rw [← List.append_assoc]
        exact shows
      have positive : Apart s d → 0 < T.size (s ++ cur ++ [de.name.text]) := by
        intro apart
        obtain ⟨rels,moved,rfl,walks,weight⟩ := going
        refine Hierarchy.sizePos ?_
        rw [List.append_assoc,← walks.grown.source apart,ne_eq,← Hierarchy.kindNone,kind]
        exact nofun
      have fewer := dotsLess given de.name.text
      subst leaves leads
      refine leavesPost ?_ (entryWalks ((keeping source).next
        ((keeping source).next st .cancelled false) (.fs (.readdir dir)) (.ok (some de))) named going new kind enough)
      intro st' next held
      cases next with
      | inl w' =>
        obtain ⟨scans,going⟩ := held
        refine ⟨_,⟨de.name.text :: given,start,?_,begun,going,Nat.le_refl _⟩,fun yes => ?_⟩
        · rw [scans]
          exact given'
        · have some_ := positive (enough yes).1
          omega
      | inr w' =>
        obtain ⟨e,code,fails⟩ := held
        show Ends _ _ _ _ st' w'.rc
        rw [code]
        exact endsBadly fails

theorem treeWalks {n} (going : Going T (origin j) (target j) (fun _ => False) 0 n st.1.tree w)
    (enough : ends → Apart (origin j) (target j) ∧ Enough rounds T) :
    (keeping source).Leaves (fun _ => ¬ ends) (fun st' next => Sum.elim
      (fun w' => ∃ n', Going T (origin j) (target j) (fun _ => False) 0 n' st'.1.tree w' ∧ (ends → n' < n))
      (fun w' => Ends T (origin j) (target j)
        (Walks T (origin j) (target j) st'.1.tree [] fun _ => False) st' w'.rc) next) st
      (copyTreeRound rounds j w) := by
  obtain ⟨rels,moved,rfl,walks,weight⟩ := going
  have started := walks.grown
  cases rels with
  | nil => exact leavesPure (endsWell walks)
  | cons cur rels =>
    obtain ⟨dir,_⟩ := walks.stack cur List.mem_cons_self
    have there : st.1.tree.node (origin j ++ cur) ≠ none := by
      rw [Hierarchy.kindDir.mp dir]
      exact nofun
    have named : ∀ name ∈ cur, Named name := fun name member =>
      Hierarchy.validAll there name (List.mem_append_right _ member)
    refine leavesAsk fun seen _ => ?_
    cases seen with
    | true => exact leavesPure (endsBadly fun _ => .inl (faultNoted .cancelled true rfl))
    | false =>
      dsimp only [item]
      rw [if_neg Bool.false_ne_true]
      split
      · rename_i src dst fromSrc toDst
        have leaves : locate src = origin j ++ cur := joinLocates named fromSrc
        have leads : locate dst = target j ++ cur := joinLocates named toDst
        refine leavesThen (ensureWalks ((keeping source).next st .cancelled false) walks leads) ?_
        rintro st' rc ⟨_,good,bad⟩
        cases rc with
        | some e => exact leavesPure (endsBadly fun _ => .inl (bad nofun))
        | none =>
          have walks := good rfl
          refine leavesAsk fun answer possible => ?_
          match answer,possible with
          | .error e,_ => exact leavesPure (endsBadly fun _ => .inl (faultNoted (.fs (.opendir src)) (.error e) rfl))
          | .ok fd,possible =>
            have scan : (st'.1.after (.opendir src) (.ok fd)).scans fd = some ⟨origin j ++ cur,[],st'.1.tree⟩ := by
              show Function.update st'.1.scans fd _ fd = _
              rw [Function.update_self,leaves]
            have first : Apart (origin j) (target j) →
                weigh T (origin j) rels + (T.left (origin j ++ cur) [] + 1) ≤ n := by
              intro apart
              have whole := weight apart
              have sum : weigh T (origin j) (cur :: rels) =
                T.size (origin j ++ cur) + weigh T (origin j) rels := by simp [weigh]
              have source : T.node (origin j ++ cur) ≠ none := by
                rw [← started.source apart]
                exact there
              have less := Hierarchy.leftFirst source
              omega
            refine leavesVia (fun st'' w' => Ends T (origin j) (target j)
              (Going T (origin j) (target j) (fun _ => False) 1 n st''.1.tree w') st'' w'.rc) ?_ ?_
            · refine leavesWithin (Reading T (origin j) (target j) cur fd n)
                (fun _ _ _ reading => dirWalks named reading enough) rounds
                ⟨[],st'.1.tree,scan,walks.grown,⟨rels,moved,rfl,walks,first⟩,Nat.le_refl _⟩ fun yes => ?_
              have top := (enough yes).2.entries
              have fits := (T.leftSize (origin j ++ cur) []).trans (T.sizeTop _)
              have two : dotsLeft [] = 2 := by decide
              omega
            rintro st'' w' ⟨good,bad⟩
            refine leavesAsk fun _ _ => ?_
            split
            · rename_i fine
              obtain ⟨rels,moved,rfl,walks,weight⟩ := good fine
              refine leavesPure ⟨n - 1,⟨rels,moved,rfl,walks,fun apart => ?_⟩,fun yes => ?_⟩
              · have less := weight apart
                omega
              · have less := weight (enough yes).1
                omega
            · rename_i failed
              refine leavesPure ⟨fun fine => absurd fine failed,fun e code apart => ?_⟩
              exact (bad e code apart).imp (faultStays (.fs (.closedir fd)) _) id
      · exact leavesPure (endsBadly fun _ => .inr (.inr rfl))

theorem copyWalks (st) (folder : st.1.tree.node (origin j) = some .dir)
    (enough : ends → Apart (origin j) (target j) ∧ Enough rounds st.1.tree) :
    (keeping source).Leaves (fun _ => ¬ ends) (fun st' rc => Ends st.1.tree (origin j) (target j)
      (Walks st.1.tree (origin j) (target j) st'.1.tree [] fun _ => False) st' rc) st
      (copyTree rounds j) := by
  refine leavesAsk fun made _ => ?_
  cases made with
  | false => exact leavesPure (endsBadly fun _ => .inl (faultNoted .malloc false rfl))
  | true =>
    refine leavesThen (leavesWithin (fun n st' w => Going st.1.tree (origin j) (target j)
      (fun _ => False) 0 n st'.1.tree w) (fun _ _ _ going => treeWalks going enough) rounds
      ⟨[[]],0,rfl,walksFirst folder,fun _ => Nat.le_refl _⟩ fun yes => ?_) fun st' w held => leavesPure held
    have top := (enough yes).2.entries
    have less := st.1.tree.sizeTop (origin j)
    have sum : weigh st.1.tree (origin j) [[]] = st.1.tree.size (origin j) := by simp [weigh]
    omega

theorem transferWalks (ends : Prop) (rounds st) (folder : st.1.tree.node (origin j) = some .dir)
    (enough : ends → Apart (origin j) (target j) ∧ Enough rounds st.1.tree) :
    (keeping j.path.text).Leaves (fun _ => ¬ ends) (fun st' rc => Ends st.1.tree (origin j) (target j)
      (Walks st.1.tree (origin j) (target j) st'.1.tree [] fun _ => False) st' rc) st
      (transferCopy rounds j) := by
  unfold transferCopy
  split
  · rename_i same
    rw [show origin j = target j from congrArg (locate ·.text) same]
    exact leavesPure (endsBadly fun apart => absurd (List.prefix_refl _) apart.1)
  refine leavesAsk fun answer possible => ?_
  match answer,possible with
  | .error e,_ => exact leavesPure (endsBadly fun _ => .inl (faultNoted (.fs (.stat j.path.text)) (.error e) (decide_eq_true rfl)))
  | .ok stat,possible =>
    have shows : Shows st.1.tree (origin j) stat.mode := possible
    have dir : isDir stat.mode = true := by
      rw [Shows,folder] at shows
      by_contra leaf
      rw [shown,if_neg leaf] at shows
      split at shows <;> contradiction
    dsimp only
    rw [if_pos dir]
    exact copyWalks ((keeping j.path.text).next st (.fs (.stat j.path.text)) (.ok stat)) folder enough

end Walk
end OpenPs3Ftp.Copying
