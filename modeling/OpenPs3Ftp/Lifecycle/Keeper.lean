import OpenPs3Ftp.Lib.Behaviour
import OpenPs3Ftp.Lifecycle.Schedule

/-! Who keeps a run. A start or `run_loop` past its check keeps the run it begins until the
reactor thread is announced, the caller of `run_loop` until it returns, and a stop from
where it has found a reactor thread. What the server looks like then follows from the
place of the keeper. -/
namespace OpenPs3Ftp.Lifecycle
open Lib Fs Program

abbrev Threading := Threads.State Entry Op Reply (Option Errno) Shared Role
abbrev Doing := Threads.Label Entry Op Reply (Option Errno) Event

def Shared.active (s : Shared) : Bool :=
  match s.reactor with
  | .active _ _ => true
  | _ => false

def Role.keeps : Role → Bool
  | .entered | .staffed | .broken | .claimed | .spawned | .poised | .failing | .serving | .joining | .joined
  | .closing _ _ => true
  | _ => false

def Role.claims : Role → Bool
  | .claimed | .spawned | .poised | .failing | .serving | .joining | .joined => true
  | .closing whence _ => decide (whence ≠ .failed)
  | _ => false

def Role.keeper (role : Role) : Option Role := if role.keeps then some role else none

/- The flags of the server, by the place of the thread that keeps the run. A run that nobody
keeps has a reactor thread which some stop can join. -/
def Fits (s : Shared) : Option Role → Prop
  | none => s.started = s.running ∧ (s.active = true → s.running = true)
  | some .joining => s.started = true ∧ s.running = true
  | some .joined => s.started = true ∧ s.running = true ∧ s.active = false
  | some .spawned | some .serving => s.started = true ∧ s.running = false
  | some role => s.started = role.claims ∧ s.running = false ∧ s.active = false

def Begins (role : Role) (e : Exchange Reply) : Prop :=
  role = .calling ∧ e = ⟨.isStarted,false⟩ ∨ (∃ seen, role = .waking seen) ∧ e = ⟨.isRunning,true⟩

theorem overInactive {s : Shared} (past : s.reactor = .ended) : s.active = false := by
  rw [Shared.active,past]

section
variable {s s' : Shared} {role : Role} {op : Op} {answer : Reply op}

theorem fitsKeeper (keeps : role.keeps = true) (fits : Fits s (some role)) (allowed : Allows role op)
    (can : Can s op answer) : Fits (effect s op answer) (role.note op answer).keeper := by
  cases allowed
  all_goals first | exact absurd (show false = true from keeps) (by decide) | exact fits | skip
  case build builds => cases op <;> first | exact fits | cases builds
  case create | wrap => cases answer <;> exact fits
  case abort | abortBroken => exact ⟨fits.1.trans fits.2.1.symm,fun on => absurd (fits.2.2.symm.trans on) (by decide)⟩
  case claim => exact ⟨rfl,fits.2⟩
  case loopOnly => exact ⟨fits.1,rfl,fits.2.2⟩
  case spawn =>
    cases answer with
    | true => exact ⟨fits.1,fits.2.1⟩
    | false => exact fits
  case disclaim => exact ⟨rfl,fits.2⟩
  case running => exact ⟨fits.1,fun _ => rfl⟩
  case enterLoop => exact ⟨fits.1,fits.2.1⟩
  case leaveLoop => exact ⟨fits.1,fits.2,overInactive can⟩
  case join => exact ⟨fits.1,fits.2,overInactive can⟩
  case joined => exact ⟨fits.1,rfl,fits.2.2⟩
  case finish whence d begun past =>
    cases whence with
    | failed => exact absurd rfl begun
    | loop | stop => exact ⟨fits.2.1.symm,fun on => absurd (fits.2.2.symm.trans on) (by decide)⟩

theorem fitsOther {keeper} (idle : role.keeps = false) (allowed : Allows role op) (fits : Fits s keeper) :
    Fits (effect s op answer) keeper := by
  cases allowed
  all_goals first | exact absurd (show true = false from idle) (by decide) | exact fits

theorem fitsStarted (fits : Fits s (some role)) (claims : role.claims = true) :
    s.started = true := by
  cases role
  case joining | joined | spawned | serving => exact fits.1
  all_goals exact fits.1.trans claims

theorem fitsRunning (fits : Fits s (some role)) (running : s.running = true) : role = .joining ∨ role = .joined := by
  cases role
  case joining => exact .inl rfl
  case joined => exact .inr rfl
  case spawned | serving => exact absurd (fits.2.symm.trans running) (by decide)
  all_goals exact absurd (fits.2.1.symm.trans running) (by decide)

theorem fitsBegin (fits : Fits s none) (can : Can s op answer) (begins : Begins role ⟨op,answer⟩) :
    Fits (effect s op answer) (some (role.note op answer)) := by
  rcases begins with ⟨rfl,same⟩ | ⟨⟨seen,rfl⟩,same⟩
  · cases same
    have off : s.running = false := fits.1.symm.trans can.symm
    refine ⟨can.symm,off,?_⟩
    by_contra on
    exact absurd (off.symm.trans (fits.2 (Bool.of_not_eq_false on))) (by decide)
  · cases same
    exact ⟨fits.1.trans can.symm,can.symm⟩

theorem fitsLess {keeper} (fits : Fits s keeper) (started : s'.started = s.started) (running : s'.running = s.running)
    (less : s'.active = true → s.active = true) : Fits s' keeper := by
  have quiet : s.active = false → s'.active = false := by
    intro off
    by_contra on
    exact absurd (off.symm.trans (less (Bool.of_not_eq_false on))) (by decide)
  rcases keeper with _ | role
  · exact ⟨started.trans (fits.1.trans running.symm),fun on => running.trans (fits.2 (less on))⟩
  · cases role
    case joining | spawned | serving => exact ⟨started.trans fits.1,running.trans fits.2⟩
    all_goals exact ⟨started.trans fits.1,running.trans fits.2.1,quiet fits.2.2⟩

theorem eventFlags {what} (happens : Happens s what s') :
    s'.started = s.started ∧ s'.running = s.running ∧ (s'.active = true → s.active = true) := by
  cases happens <;> refine ⟨rfl,rfl,fun on => ?_⟩ <;> simp_all [Shared.active]

theorem keepsFrom (idle : role.keeps = false) (allowed : Allows role op) (keeps : (role.note op answer).keeps = true) :
    Begins role ⟨op,answer⟩ := by
  cases allowed
  all_goals first
    | exact absurd (show true = false from idle) (by decide)
    | exact absurd (show false = true from keeps) (by decide)
    | cases answer
  case check.true | await.false | await.true => exact absurd keeps (by decide)
  case check.false => exact .inl ⟨rfl,rfl⟩
  case find.false seen => exact absurd (show false = true from keeps) (by decide)
  case find.true seen => exact .inr ⟨⟨seen,rfl⟩,rfl⟩

theorem leftFits {value} (left : Leaves role value) (keeps : role.keeps = true) (fits : Fits s (some role)) :
    Fits s none := by
  cases left with
  | late => exact ⟨fits.1.trans fits.2.symm,fun _ => fits.2⟩
  | failed past => exact ⟨fits.1.trans fits.2.1.symm,fun on => absurd (fits.2.2.symm.trans on) (by decide)⟩
  | refused | aborted | plain | freed => cases keeps

end

/- A start or `run_loop` does not load `started` while another is between its own load and
its store, or undoes one that could not create its thread; and no stop loads
`reactor_running` while another waits for the reactor thread. -/
def spares (st : Threading) (u : Nat) : Doing → Bool
  | .call t ⟨.isStarted,_⟩ => u == t || st.role t != .calling || !(st.role u).keeps || (st.role u).claims
  | .call t ⟨.isRunning,_⟩ => u == t || st.role u != .joining && st.role u != .joined
  | _ => true

def Exclusive (st : Threading) (label : Doing) : Prop := ∀ u, spares st u label = true

/- A description of the server by the place of the keeper, kept by every step that meets a
condition on what operations answer. -/
structure Table (may : Exchange Reply → Prop) (holds : Shared → Option Role → Prop) : Prop where
  first : holds created none
  own : ∀ {s role op answer}, role.keeps = true → holds s (some role) → Allows role op → Can s op answer →
    may ⟨op,answer⟩ → holds (effect s op answer) (role.note op answer).keeper
  other : ∀ {s role op answer keeper}, role.keeps = false → Allows role op → holds s keeper →
    holds (effect s op answer) keeper
  disposal : ∀ {s role op answer keeper}, Disposes role op → holds s keeper → holds (effect s op answer) keeper
  begins : ∀ {s role op answer}, holds s none → Can s op answer → Begins role ⟨op,answer⟩ →
    holds (effect s op answer) (some (role.note op answer))
  left : ∀ {s role value}, Leaves role value → role.keeps = true → holds s (some role) → holds s none
  event : ∀ {s what s' keeper}, holds s keeper → Happens s what s' → holds s' keeper

theorem fitsTable : Table (fun _ => True) Fits where
  first := ⟨rfl,fun on => absurd on (by decide)⟩
  own keeps fits allowed can _ := fitsKeeper keeps fits allowed can
  other := fitsOther
  disposal disposes fits := by cases disposes <;> exact fits
  begins := fitsBegin
  left := leftFits
  event fits happens := by
    obtain ⟨started,running,less⟩ := eventFlags happens
    exact fitsLess fits started running less

structure Kept (holds : Shared → Option Role → Prop) (st : Threading) (keeper : Option Nat) : Prop where
  sole : ∀ t, (st.role t).keeps = true ↔ keeper = some t
  fits : holds st.shared (keeper.map st.role)

variable {t : Nat} {role : Role}

section
variable {cfg : Config} {st st' : Threading} {label : Doing} {keeper : Option Nat} {holds : Shared → Option Role → Prop}
  {may : Exchange Reply → Prop}

theorem Kept.idle (kept : Kept holds st keeper) (idle : (st.role t).keeps = false) : keeper ≠ some t :=
  fun same => absurd (idle.symm.trans ((kept.sole t).mpr same)) (by decide)

theorem mapOther (other : keeper ≠ some t) :
    keeper.map (Function.update st.role t role) = keeper.map st.role := by
  cases keeper with
  | none => rfl
  | some u => simp [Function.update_of_ne fun same => other (congrArg some same)]

theorem Kept.other (kept : Kept holds st keeper) {t role shared task} (idle : (st.role t).keeps = false)
    (still : role.keeps = false) (fits : ∀ keeper, holds st.shared keeper → holds shared keeper) :
    Kept holds ⟨shared,task,Function.update st.role t role⟩ keeper where
  sole u := by
    by_cases same : u = t
    · subst same
      simp [still,kept.idle idle]
    · simpa [Function.update_of_ne same] using kept.sole u
  fits := by
    rw [mapOther (kept.idle idle)]
    exact fits _ kept.fits

theorem Kept.own (kept : Kept holds st (some t)) {shared task} (fits : holds shared role.keeper) :
    ∃ keeper, Kept holds ⟨shared,task,Function.update st.role t role⟩ keeper := by
  refine ⟨if role.keeps then some t else none,fun u => ?_,?_⟩
  · by_cases same : u = t
    · subst same
      by_cases keeps : role.keeps = true <;> simp [keeps]
    · have other : (st.role u).keeps ≠ true := fun keeps => same (Option.some.inj ((kept.sole u).mp keeps)).symm
      by_cases keeps : role.keeps = true <;> simp [Function.update_of_ne same,other,keeps,Ne.symm same]
  · by_cases keeps : role.keeps = true <;> simpa [Role.keeper,keeps] using fits

theorem Kept.begin (kept : Kept holds st none) {shared task} (keeps : role.keeps = true)
    (fits : holds shared (some role)) :
    Kept holds ⟨shared,task,Function.update st.role t role⟩ (some t) where
  sole u := by
    by_cases same : u = t
    · subst same
      simp [keeps]
    · have other : (st.role u).keeps ≠ true := fun keeps => absurd ((kept.sole u).mp keeps) (by simp)
      simp [Function.update_of_ne same,other,Ne.symm same]
  fits := by simpa using fits

theorem Kept.vacant (kept : Kept holds st keeper) (finer : ∀ keeper, holds st.shared keeper → Fits st.shared keeper)
    {e} (met : Exclusive st (.call t e)) (idle : (st.role t).keeps = false) (can : Can st.shared e.1 e.2)
    (begins : Begins (st.role t) e) : keeper = none := by
  cases keeper with
  | none => rfl
  | some u =>
    have other : u ≠ t := fun same => kept.idle idle (congrArg some same)
    have keeps := (kept.sole u).mpr rfl
    have fits := finer _ kept.fits
    exfalso
    rcases begins with ⟨calling,rfl⟩ | ⟨-,rfl⟩
    · have claims : (st.role u).claims = true := by simpa [spares,other,calling,keeps] using met u
      exact absurd (Eq.trans can (fitsStarted fits claims)) (by decide)
    have apart : st.role u ≠ .joining ∧ st.role u ≠ .joined := by simpa [spares,other] using met u
    rcases fitsRunning fits can.symm with joining | joined
    · exact apart.1 joining
    · exact apart.2 joined

theorem Table.step (table : Table may holds) (finer : ∀ s keeper, holds s keeper → Fits s keeper)
    (kept : Kept holds st keeper) (keeps : (rules cfg).Keeps st) (met : Exclusive st label)
    (can : ∀ t e, label = .call t e → may e) (step : (threads cfg).system.step st label st') :
    ∃ keeper, Kept holds st' keeper := by
  cases step with
  | @enter t entry free =>
    have idle : (st.role t).keeps = false := by rw [keeps.out free]; rfl
    exact ⟨keeper,kept.other idle (by cases entry <;> rfl) fun _ fits => fits⟩
  | @call t entry op next shared answer busy performed =>
    obtain ⟨possible,rfl⟩ := performed
    rcases keeps.allowed busy with allowed | ⟨-,disposes⟩
    · cases mine : (st.role t).keeps with
      | true =>
        obtain rfl : keeper = some t := (kept.sole t).mp mine
        exact kept.own (table.own mine kept.fits allowed possible (can t _ rfl))
      | false =>
        cases next : ((st.role t).note op answer).keeps with
        | false => exact ⟨keeper,kept.other mine next fun _ => table.other mine allowed⟩
        | true =>
          have begins := keepsFrom mine allowed next
          obtain rfl := kept.vacant (finer _) met mine possible begins
          exact ⟨some t,kept.begin next (table.begins kept.fits possible begins)⟩
    have idle : (st.role t).keeps = false ∧ ((st.role t).note op answer).keeps = false := by
      generalize st.role t = role at disposes
      cases disposes with
      | inspect => cases answer <;> exact ⟨rfl,rfl⟩
      | free | freeStopped => exact ⟨rfl,rfl⟩
    exact ⟨keeper,kept.other idle.1 idle.2 fun _ => table.disposal disposes⟩
  | @leave t entry value busy =>
    cases mine : (st.role t).keeps with
    | true =>
      obtain rfl : keeper = some t := (kept.sole t).mp mine
      exact kept.own (table.left (keeps.left busy) mine kept.fits)
    | false => exact ⟨keeper,kept.other mine rfl fun _ fits => fits⟩
  | event happened => exact ⟨keeper,kept.sole,table.event kept.fits happened⟩

theorem Table.reached (table : Table may holds) (finer : ∀ s keeper, holds s keeper → Fits s keeper) {ok}
    (exclusive : ∀ st label, ok st label → Exclusive st label) (can : ∀ st t e, ok st (.call t e) → may e)
    (reached : (threads cfg).system.Reach ok st) : ∃ keeper, Kept holds st keeper := by
  induction reached with
  | start first =>
    obtain ⟨fresh,-,out⟩ := first
    refine ⟨none,fun t => ?_,?_⟩
    · rw [out t]
      exact ⟨fun keeps => absurd (show false = true from keeps) (by decide),fun same => absurd same (by simp)⟩
    · rw [show _ = created from fresh]
      exact table.first
  | step before met moved ih =>
    obtain ⟨keeper,kept⟩ := ih
    exact table.step finer kept (Threads.keepsReach before) (exclusive _ _ met) (fun t e same => can _ t e (same ▸ met)) moved

theorem keptReached (reached : (threads cfg).system.Reach Exclusive st) : ∃ keeper, Kept Fits st keeper :=
  fitsTable.reached (fun _ _ fits => fits) (fun _ _ met => met) (fun _ _ _ _ => trivial) reached

end

def exclusive (n : Nat) (st : Threading) (label : Doing) : Bool := (List.range n).all fun u => spares st u label

theorem exclusiveMet {cfg n st label} (within : Threads.Within (threads cfg) n st)
    (passed : exclusive n st label = true) : Exclusive st label := by
  intro u
  by_cases below : u < n
  · exact List.all_eq_true.mp passed u (List.mem_range.mpr below)
  · have outside : st.role u = .outside := (within u (Nat.le_of_not_lt below)).2
    unfold spares
    split <;> simp [outside,Role.keeps]

def small : Config := ⟨true,1,10⟩
def moves (n : Nat) (t : Nat) : List (Threads.Act Entry Event Bool) := List.replicate n (.move t false)

end OpenPs3Ftp.Lifecycle
