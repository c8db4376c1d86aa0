import OpenPs3Ftp.Legacy.Places

/-! Which command a legacy client gave before. PASS and RNTO look at the name of the last command that came to
a legacy handler, however it was answered there. -/
namespace OpenPs3Ftp.Legacy
open Lib Text Session Dispatch
open Setting (leavesPure leavesAsk leavesThen leavesVia mayPure mayAsk mayThen leavesPost)

abbrev Calls := List (Exchange Ask.Answer)

def hearing : Setting Ask Ask.Answer (Facade × Calls) := facing.beside fun calls call answer => calls ++ [⟨call,answer⟩]

@[simp] theorem hearingNext (f r call answer) :
    hearing.next (f,r) call answer = (facing.next f call answer,r ++ [⟨call,answer⟩]) := rfl

structure Order where
  name : Bytes
  params : Bytes
  trace : Calls

/- A command that was given: the calls made for it, and the path it stands for. -/
structure Given where
  name : Bytes
  calls : Calls
  path : Bytes

structure Standing where
  core : Client
  facade : Facade
  last : Option Given

variable (u : Setup) (st : Standing) (o : Order)

def Standing.heard : Facade × Calls := hearing.after (st.facade,[]) o.trace

def orders : System Standing Order where
  start st := st.facade.lastcmd = [] ∧ st.last = none
  step st o st' := hearing.Genuine (st.facade,[]) o.trace ∧ ∃ after,
    (dispatchCall u st.core o.name (some o.params)).Runs o.trace (some after) ∧
    st' = ⟨after.getD st.core,(st.heard o).1,some ⟨o.name,(st.heard o).2,absolute u st.facade o.params⟩⟩

def Answers (code : Nat) (calls : Calls) : Prop :=
  ∃ text, ⟨.core (.send .command text),()⟩ ∈ calls ∧ text.take 3 = decimal code

def Standing.Follows (name : String) (code : Nat) (source : Bytes → Prop) : Prop :=
  ∃ g, st.last = some g ∧ g.name = ascii name ∧ Answers code g.calls ∧ source g.path

def Sequenced : Prop :=
  (o.name = ascii "PASS" → ⟨.store (.auth true),()⟩ ∈ (st.heard o).2 → st.Follows "USER" 331 fun _ => True) ∧
  (o.name = ascii "RNTO" → ∀ old new answer, ⟨.core (.fs (.rename old new)),answer⟩ ∈ (st.heard o).2 →
    st.Follows "RNFR" 350 (old = ·))

abbrev Handled (name : Bytes) : Prop :=
  (legacyCommandOverlay u.server.allowStop).lookup name = some (.legacy name)

/- USER comes with a name and before the login, RNFR after it and with the path of something
that is there, and the command after one has a legacy handler. -/
def Steadfast : Prop :=
  (o.name = ascii "USER" → st.facade.auth = false ∧ o.params ≠ []) ∧
  (o.name = ascii "RNFR" → st.facade.auth = true ∧ o.params ≠ [] ∧
    ∀ path e, ⟨.core (.fs (.stat path)),.error e⟩ ∉ (st.heard o).2) ∧
  (st.facade.lastcmd = ascii "USER" ∨ st.facade.lastcmd = ascii "RNFR" → Handled u o.name)

/- The adapter writes the name down after the handler. -/
def taken (name : Bytes) (e : Facade × Calls) : Facade × Calls :=
  (e.1.set (.lastcmd name),e.2 ++ [⟨.store (.lastcmd name),()⟩])

/- The calls before the handler's own. -/
def entering (c : Client) (name : Bytes) : Calls := [⟨.core (.enter name c),()⟩,⟨.userdata,true⟩]

theorem overlaid (allowStop) : (legacyCommandOverlay allowStop).entries.all (fun e => e.2.casesOn (fun _ => true)
      fun n => decide (n = e.1) && (commandCall e.1).isSome) = true ∧
    ∀ name ∈ [ascii "USER",ascii "PASS",ascii "RNFR",ascii "RNTO"], (legacyCommandOverlay allowStop).lookup name = some (.legacy name) := by
  cases allowStop <;> decide +kernel

theorem overlayLegacy {allowStop name n} (found : (legacyCommandOverlay allowStop).lookup name = some (.legacy n)) :
    n = name ∧ commandCall name ≠ none := by
  obtain ⟨e,found,same⟩ := Option.map_eq_some_iff.mp found
  have named : e.1 = name := by simpa using List.find?_some found
  have fine := List.all_eq_true.mp (overlaid allowStop).1 e (List.mem_of_find?_eq_some found)
  rw [same,named] at fine
  simpa [Option.isSome_iff_ne_none] using fine

variable {u : Setup} {c : Client} {f : Facade} {name params : Bytes} {base : Base}

theorem coreLeaves {α : Type} (r) (p : Handler α) : hearing.Leaves (fun _ => True) (fun st _ => st.1 = f) (f,r) (onCore p) := by
  induction p generalizing r with
  | done a => exact leavesPure rfl
  | ask call next ih => exact fun answer _ => ih answer _

theorem anyLeaves {α : Type} (st) (p : Routine α) : hearing.Leaves (fun _ => True) (fun _ _ => True) st p := by
  induction p generalizing st with
  | done o => cases o <;> exact trivial
  | ask call next ih => exact fun answer _ => ih answer _

theorem asideLeaves (out : ¬ Handled u name) (c f params) :
    hearing.Leaves (fun _ => True) (fun st _ => st.1 = f) (f,[]) (dispatchCall u c name (some params)) := by
  unfold dispatchCall
  cases here : (legacyCommandOverlay u.server.allowStop).lookup name with
  | none => exact leavesPure rfl
  | some handle =>
    refine leavesAsk fun _ _ => leavesVia (fun st _ => st.1 = f) ?_ fun st _ held => leavesPure held
    cases handle with
    | builtin command => exact coreLeaves _ _
    | legacy n =>
      obtain rfl := (overlayLegacy here).1
      exact absurd here out

theorem handledLeaves {post : Facade × Calls → Prop} (handled : Handled u name) (known : commandCall name = some base)
    (runs : hearing.Leaves (fun _ => True) (fun st _ => post (taken name st)) (f,entering c name)
      (base.run u c name params)) :
    hearing.Leaves (fun _ => True) (fun st _ => post st) (f,[]) (dispatchCall u c name (some params)) := by
  unfold dispatchCall
  rw [handled]
  refine leavesAsk fun _ _ => leavesVia (fun st _ => post st) ?_ fun st _ held => leavesPure held
  refine leavesVia (fun st _ => post st) (leavesAsk fun present here => ?_) fun st _ held => leavesPure held
  obtain rfl : present = true := here
  rw [if_pos rfl,known]
  exact leavesThen runs fun st _ held _ _ => held

theorem passLeaves (is : name = ascii "PASS") : hearing.Leaves (fun _ => True)
    (fun st _ => ⟨.store (.auth true),()⟩ ∈ st.2 → f.lastcmd = ascii "USER") (f,[]) (dispatchCall u c name (some params)) := by
  subst is
  refine handledLeaves ((overlaid _).2 _ (by decide)) (by decide : _ = some .pass) (leavesAsk fun g same => ?_)
  split
  · exact codeLeaves (by decide) (by simp [taken,entering])
  split
  · exact codeLeaves (by decide) (by simp [taken,entering])
  · rename_i last
    refine leavesAsk fun _ _ => leavesVia (fun _ _ => True) (anyLeaves _ _) fun st text _ => codeLeaves (by decide) fun _ => ?_
    rw [← (show Agrees g f from same).lastcmd]
    exact not_not.mp last

theorem rntoLeaves (is : name = ascii "RNTO") : hearing.Leaves (fun _ => True)
    (fun st _ => ∀ old new answer, ⟨.core (.fs (.rename old new)),answer⟩ ∈ st.2 →
      f.lastcmd = ascii "RNFR" ∧ old = f.rnfr) (f,[])
    (dispatchCall u c name (some params)) := by
  subst is
  refine handledLeaves ((overlaid _).2 _ (by decide)) (by decide : _ = some .rnto) (leavesAsk fun g same => ?_)
  split
  · dsimp only [argued]
    split
    · exact codeLeaves (by decide) (by simp [taken,entering])
    split
    · exact codeLeaves (by decide) (by simp [taken,entering])
    · rename_i last
      have agrees : Agrees g f := same
      rw [agrees.lastcmd] at last
      refine leavesAsk fun result _ => ?_
      cases result <;> exact codeLeaves (by decide) (by simp +contextual [taken,entering,agrees.rnfr,not_not.mp last])
  · exact codeLeaves (by decide) (by simp [taken,entering])

theorem userLeaves (is : name = ascii "USER") (out : f.auth = false) (named : params ≠ []) :
    hearing.Leaves (fun _ => True) (fun st _ => Answers 331 st.2) (f,[]) (dispatchCall u c name (some params)) := by
  subst is
  refine handledLeaves ((overlaid _).2 _ (by decide)) (by decide : _ = some .user) (leavesAsk fun g same => ?_)
  rw [if_neg (by simp [(show Agrees g f from same).auth,out]),argued,if_neg named]
  refine leavesVia (fun _ _ => True) (anyLeaves _ _) fun st user _ => leavesAsk fun _ _ => ?_
  refine leavesVia (fun _ _ => True) (anyLeaves _ _) fun ⟨_,_⟩ text _ => codeLeaves (by decide) ?_
  exact ⟨replyText 331 text,by simp [taken],replyTextCode text (by decide)⟩

theorem rnfrLeaves (is : name = ascii "RNFR") (logged : f.auth = true) (given_ : params ≠ []) :
    hearing.Leaves (fun _ => True) (fun st _ => (∀ path e, ⟨.core (.fs (.stat path)),.error e⟩ ∉ st.2) →
      Answers 350 st.2 ∧ st.1.rnfr = absolute u f params) (f,[]) (dispatchCall u c name (some params)) := by
  subst is
  refine handledLeaves ((overlaid _).2 _ (by decide)) (by decide : _ = some .rnfr) (leavesAsk fun g same => ?_)
  have agrees : Agrees g f := same
  rw [if_pos (agrees.auth.trans logged)]
  dsimp only [argued]
  rw [if_neg given_]
  intro found _
  cases found with
  | error e => exact codeLeaves (by decide) fun there => absurd (by simp [taken,entering]) (there (absolute u g params) e)
  | ok st =>
    refine leavesAsk fun _ _ => codeLeaves (by decide) fun _ => ⟨⟨_,by simp [taken],replyTextCode r350a (by decide)⟩,?_⟩
    show absolute u g params = absolute u f params
    rw [absolute,agrees.cwd,absolute]

theorem takenLeaves (handled : Handled u name) (c f params) : hearing.Leaves (fun _ => True)
    (fun st _ => st.1.lastcmd = name) (f,[]) (dispatchCall u c name (some params)) := by
  obtain ⟨base,known⟩ := Option.ne_none_iff_exists'.mp (overlayLegacy handled).2
  exact handledLeaves handled known (leavesPost (fun _ _ _ => rfl) (anyLeaves _ _))

/- While the name of a USER or an RNFR is stored, that command was the last one, and it succeeded. -/
def Remembers : Prop :=
  (st.facade.lastcmd = ascii "USER" → st.Follows "USER" 331 fun _ => True) ∧
  (st.facade.lastcmd = ascii "RNFR" → st.Follows "RNFR" 350 (st.facade.rnfr = ·))

theorem remembersStep {st o st'} (met : Steadfast u st o) (step : (orders u).step st o st') : Remembers st' := by
  obtain ⟨genuine,after,run,rfl⟩ := step
  obtain ⟨user,rnfr,next⟩ := met
  by_cases handled : Handled u o.name
  · have last := Setting.yieldsRuns (takenLeaves handled st.core st.facade o.params) run genuine
    refine ⟨fun is => ?_,fun is => ?_⟩
    · have name := last.symm.trans is
      exact ⟨_,rfl,name,Setting.yieldsRuns (userLeaves name (user name).1 (user name).2) run genuine,trivial⟩
    · have name := last.symm.trans is
      obtain ⟨logged,given_,there⟩ := rnfr name
      obtain ⟨told,source⟩ := Setting.yieldsRuns (rnfrLeaves name logged given_) run genuine there
      exact ⟨_,rfl,name,told,source⟩
  · have same := Setting.yieldsRuns (asideLeaves handled st.core st.facade o.params) run genuine
    refine ⟨fun is => absurd (next (.inl ?_)) handled,fun is => absurd (next (.inr ?_)) handled⟩
    · exact (congrArg Facade.lastcmd same).symm.trans is
    · exact (congrArg Facade.lastcmd same).symm.trans is

theorem sequenceKept {st o st'} (reached : (orders u).Reach (Steadfast u) st) (step : (orders u).step st o st') :
    Sequenced st o := by
  have remembers : Remembers st := by
    refine (orders u).invariant (fun st start => ?_) (fun _ _ _ _ met step => remembersStep met step) reached
    rw [Remembers,start.1]
    exact ⟨fun no => absurd no (by decide),fun no => absurd no (by decide)⟩
  obtain ⟨genuine,after,run,-⟩ := step
  refine ⟨fun is stored => ?_,fun is old new answer renamed => ?_⟩
  · exact remembers.1 (Setting.yieldsRuns (passLeaves is) run genuine stored)
  · obtain ⟨last,rfl⟩ := Setting.yieldsRuns (rntoLeaves is) run genuine old new answer renamed
    exact remembers.2 last

theorem handledMay {e} (handled : Handled u name) (known : commandCall name = some base) (last)
    (runs : hearing.May (fun st _ => st = e) (f,entering c name) (base.run u c name params)) :
    ∃ trace, hearing.after (f,[]) trace = taken name e ∧ (orders u).step ⟨c,f,last⟩ ⟨name,params,trace⟩
      ⟨c,(taken name e).1,some ⟨name,(taken name e).2,absolute u f params⟩⟩ := by
  have may : hearing.May (fun st after => after = some c ∧ st = taken name e) (f,[]) (dispatchCall u c name (some params)) := by
    unfold dispatchCall
    rw [handled]
    refine mayAsk () trivial (mayThen (fun st after => after = c ∧ st = _) ?_ fun st after held =>
      mayPure ⟨congrArg some held.1,held.2⟩)
    refine mayThen (fun st _ => st = _) (mayAsk true rfl ?_) fun st _ held => mayPure ⟨rfl,held⟩
    rw [if_pos rfl,known]
    refine mayThen _ runs ?_
    rintro st _ rfl
    exact mayAsk () trivial (mayPure rfl)
  obtain ⟨trace,_,run,genuine,rfl,same⟩ := may
  exact ⟨trace,same,genuine,_,run,by rw [Standing.heard,same]; rfl⟩

/- A client that gives USER and then PASS. -/
theorem logsIn {ok e} (user : Bytes) (runs : hearing.May (fun st _ => st = e) (blank,entering visitor (ascii "USER")) (cmdUser user))
    (barred : e.1.auth = false) (short : e.1.user.length < 32)
    (met : ∀ trace, ok ⟨visitor,blank,none⟩ ⟨ascii "USER",user,trace⟩) :
    ∃ st o st', (orders linux).Reach ok st ∧ (orders linux).step st o st' ∧ o.name = ascii "PASS" ∧
      ⟨.store (.auth true),()⟩ ∈ (st.heard o).2 ∧ ∀ g, st.last = some g → g.calls = (taken (ascii "USER") e).2 := by
  obtain ⟨trace,-,step⟩ := handledMay ((overlaid _).2 (ascii "USER") (by decide)) (by decide : _ = some .user) none runs
  have fits : (ascii "Successfully logged in as " ++ (taken (ascii "USER") e).1.user ++ ascii ".").length <
      maxUsernameLen + 32 := by
    simp only [List.length_append,maxUsernameLen,taken,Facade.set]
    have sizes : (ascii "Successfully logged in as ").length = 26 ∧ (ascii ".").length = 1 := by decide
    omega
  obtain ⟨trace',heard',step'⟩ := @handledMay linux visitor (taken (ascii "USER") e).1 (ascii "PASS") [] .pass _
    ((overlaid _).2 _ (by decide)) (by decide) (some ⟨_,_,_⟩) (mayAsk (taken (ascii "USER") e).1 ⟨rfl,rfl,rfl,rfl⟩ (by
      rw [if_neg (by simp [taken,Facade.set,barred]),if_neg (by simp [taken,Facade.set]),copied,if_pos fits]
      exact mayAsk () trivial (mayAsk () trivial (mayPure rfl))))
  refine ⟨_,_,_,.step (.start ⟨rfl,rfl⟩) (met trace) step,step',rfl,?_,?_⟩
  · rw [Standing.heard,heard']
    simp [taken,entering]
  · rintro _ ⟨⟩
    rfl

/- USER without a name is refused, and PASS takes it for a USER. -/
theorem nobodyLogged : ∃ st o st', (orders linux).Reach (fun _ _ => True) st ∧ (orders linux).step st o st' ∧ ¬ Sequenced st o := by
  obtain ⟨st,o,st',reached,step,name,stored,calls⟩ := @logsIn (fun _ _ => True) _ []
    (mayAsk blank ⟨rfl,rfl,rfl,rfl⟩ (mayAsk () trivial (mayPure rfl))) rfl (by decide) fun _ => trivial
  refine ⟨st,o,st',reached,step,fun kept => ?_⟩
  obtain ⟨g,last,-,⟨text,sent,code⟩,-⟩ := kept.1 name stored
  rw [calls g last] at sent
  obtain rfl : text = replyText 501 r501 := by simpa [taken,entering] using sent
  exact absurd code (by decide)

theorem sequenceKeptUser : ∃ st o st', (orders linux).Reach (Steadfast linux) st ∧ (orders linux).step st o st' ∧
    ⟨.store (.auth true),()⟩ ∈ (st.heard o).2 ∧ Sequenced st o := by
  obtain ⟨st,o,st',reached,step,-,stored,-⟩ := @logsIn (Steadfast linux) _ (ascii "x")
    (mayAsk blank ⟨rfl,rfl,rfl,rfl⟩ (mayAsk () trivial (mayAsk () trivial (mayPure rfl)))) rfl (by decide) fun trace =>
      ⟨fun _ => ⟨rfl,(by decide : ascii "x" ≠ [])⟩,fun is => absurd is (by decide : ascii "USER" ≠ ascii "RNFR"),fun is => absurd is (by decide)⟩
  exact ⟨st,o,st',reached,step,stored,sequenceKept reached step⟩

end OpenPs3Ftp.Legacy
