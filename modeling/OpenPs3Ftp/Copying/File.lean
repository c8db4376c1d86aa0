import OpenPs3Ftp.Copying.Disk
import OpenPs3Ftp.Worker.Running

/-! One file of a copy. Its destination is opened with `O_TRUNC` before a byte is read, so a
file that was there is lost when the copy fails; one that was not there is removed again,
if it can be. -/
namespace OpenPs3Ftp.Copying
open Lib Text Resolve Fs Session Worker
open Setting (leavesPure leavesAsk leavesMono leavesThen leavesVia leavesDown besideRuns)

variable (source : Bytes) (trace : Work.Trace)

def fails : (call : Work) → call.Answer → Bool
  | .cancelled,seen => seen
  | .malloc,made => !made
  | .fs (.stat path),.error _ => path = source
  | .fs (.openFile ..),.error _ | .fs (.read ..),.error _ | .fs (.write ..),.error _ | .fs (.write ..),.ok 0
  | .fs (.opendir _),.error _ | .fs (.readdir _),.error _ | .fs (.mkdir ..),.error _ => true
  | _,_ => false

structure Log where
  faulty : Bool
  opened : Bool
  removed : Bool
  written : Bytes
  deriving DecidableEq

def opensNew : (call : Work) → call.Answer → Bool
  | .fs (.openFile _ flags _),.ok _ => flags.trunc
  | _,_ => false

def removes : (call : Work) → call.Answer → Bool
  | .fs (.unlink _),.ok _ => true
  | _,_ => false

def writes : (call : Work) → call.Answer → Bytes
  | .fs (.write _ bytes),.ok n => bytes.take n
  | _,_ => []

def Log.note (log : Log) (call : Work) (answer : call.Answer) : Log :=
  ⟨log.faulty || fails source call answer,log.opened || opensNew call answer,log.removed || removes call answer,
   log.written ++ writes call answer⟩

def Log.blank : Log := ⟨false,false,false,[]⟩

abbrev Diary := Disk × Log

def keeping : Setting Work Work.Answer Diary := filesystem.beside (Log.note source)

variable {t : Tree} {p : Place}

theorem contentFill (file : t.IsFile p) (bytes) : content (t.fill p bytes) p = bytes := by
  unfold content
  rw [t.nodeFill,if_pos ⟨file,rfl⟩]

theorem wroteFill (t : Tree) (p) (old : Bytes) (bytes) :
    wrote (t.fill p old) ⟨p,old.length,true⟩ bytes = t.fill p (old ++ bytes) := by
  by_cases file : t.IsFile p
  · rw [wrote,contentFill file,t.fillFill,spliceEnd]
  · have still : ¬ (t.fill p old).IsFile p := fun yes => file ((t.isFileFill p old p).mp yes)
    rw [wrote,Hierarchy.fillNot still,Hierarchy.fillNot file,Hierarchy.fillNot file]

theorem openedMissing (missing : t.node p = none) :
    opened t p copyFlags = t.make p (.file []) := if_pos ⟨rfl,missing⟩

theorem openedThere (there : t.node p ≠ none) : opened t p copyFlags = t.fill p [] := by
  rw [opened,if_neg (fun both => there both.2),if_pos (show copyFlags.trunc = true from rfl)]

theorem opensFree (opens : Opens t p copyFlags) (missing : t.node p = none) : t.Free p := by
  unfold Opens at opens
  rw [missing] at opens
  exact opens.2

theorem opensLeaf (opens : Opens t p copyFlags) : t.node p ≠ some .dir := by
  intro dir
  unfold Opens at opens
  rw [dir] at opens
  exact absurd (show copyFlags = readonly from opens) (by decide)

theorem openedFile (opens : Opens t p copyFlags) (file : (opened t p copyFlags).IsFile p) :
    (opened t p copyFlags).node p = some (.file []) := by
  by_cases missing : t.node p = none
  · rw [openedMissing missing,t.nodeMake,if_pos ⟨opensFree opens missing,rfl⟩]
  · rw [openedThere missing] at file ⊢
    rw [t.nodeFill,if_pos ⟨(t.isFileFill p [] p).mp file,rfl⟩]

theorem openedRead (t p) : opened t p readonly = t := by simp [opened,readonly]

theorem openedNone (opens : Opens t p copyFlags) :
    (opened t p copyFlags).fill p [] = opened t p copyFlags := Hierarchy.fillSame (openedFile opens)

variable {log : Log} {w : Bytes} {pos : Nat} {st : Diary}

section File
variable {source : Bytes} {ends : Prop} {rounds : Nat} {t : Tree} {s d : Place} {input output : Fd}

structure Between (t : Tree) (s d : Place) (input output : Fd) (w : Bytes) (pos : Nat) (st : Disk) : Prop where
  tree : st.tree = t.fill d w
  writing : st.files output = some ⟨d,w.length,true⟩
  reading : st.files input = some ⟨s,pos,false⟩
  apart : input ≠ output

structure Since (log : Log) (w : Bytes) (now : Log) : Prop where
  opened : now.opened = log.opened
  removed : now.removed = log.removed
  written : now.written = log.written ++ w
  faulty : log.faulty = true → now.faulty = true

theorem Since.more {now} (since : Since log w now) (source call answer) (opens : opensNew call answer = false)
    (removing : removes call answer = false) :
    Since log (w ++ writes call answer) (now.note source call answer) where
  opened := by rw [Log.note,opens,since.opened,Bool.or_false]
  removed := by rw [Log.note,removing,since.removed,Bool.or_false]
  written := by rw [Log.note,since.written,List.append_assoc]
  faulty early := by rw [Log.note,since.faulty early,Bool.true_or]

theorem Since.same {now} (since : Since log w now) (source call answer) (opens : opensNew call answer = false)
    (removing : removes call answer = false) (nothing : writes call answer = []) :
    Since log w (now.note source call answer) := by
  have more := since.more source call answer opens removing
  rwa [nothing,List.append_nil] at more

theorem faultNoted (call answer) (bad : fails source call answer = true) :
    (log.note source call answer).faulty = true := by rw [Log.note,bad,Bool.or_true]

theorem faultStays (call answer) (bad : log.faulty = true) :
    (log.note source call answer).faulty = true := by rw [Log.note,bad,Bool.true_or]

theorem writeBetween (bytes : Bytes)
    (between : Between t s d input output w pos st.1) (since : Since log w st.2) (enough : ends → bytes.length < rounds) :
    (keeping source).Leaves (fun _ => ¬ ends) (fun st' rc => st'.1.scans = st.1.scans ∧ ∃ done rest, bytes = done ++ rest ∧
      Between t s d input output (w ++ done) pos st'.1 ∧ Since log (w ++ done) st'.2 ∧
      (rc = none → rest = []) ∧ (rc ≠ none → st'.2.faulty = true)) st (fsWriteAll rounds output bytes) := by
  refine leavesDown (fun st' rest => st'.1.scans = st.1.scans ∧ ∃ done, bytes = done ++ rest ∧
    Between t s d input output (w ++ done) pos st'.1 ∧ Since log (w ++ done) st'.2) (fun _ rest => rest.length) ?_ rounds
    ⟨rfl,[],rfl,by rwa [List.append_nil],by rwa [List.append_nil]⟩ enough
  rintro ⟨disk,now⟩ rest ⟨scans,done,split,between,since⟩
  dsimp only at scans between since
  unfold writeRound
  split
  · rename_i empty
    exact leavesPure ⟨scans,done,rest,split,between,since,fun _ => empty,fun code => absurd rfl code⟩
  rename_i some_
  refine leavesAsk fun answer possible => ?_
  have step : ∀ n, n ≤ rest.length → answer = .ok n →
      Between t s d input output (w ++ (done ++ rest.take n)) pos (disk.after (.write output rest) answer) ∧
        (disk.after (.write output rest) answer).scans = disk.scans := by
    rintro n room rfl
    have after : disk.after (.write output rest) (.ok n) =
        { disk with tree := wrote disk.tree ⟨d,(w ++ done).length,true⟩ (rest.take n) }.setFile output
          (some ⟨d,(w ++ done).length + n,true⟩) := by
      simp only [Disk.after,between.writing]
    have length : (w ++ (done ++ rest.take n)).length = (w ++ done).length + n := by
      simp only [List.length_append,List.length_take]
      omega
    rw [after]
    refine ⟨⟨?_,?_,?_,between.apart⟩,rfl⟩
    · show wrote disk.tree _ _ = _
      rw [between.tree,wroteFill,List.append_assoc]
    · show Function.update disk.files output _ output = _
      rw [Function.update_self,length]
    · show Function.update disk.files output _ input = _
      rw [Function.update_of_ne between.apart,between.reading]
  have logged := since.more source (.fs (.write output rest)) answer rfl rfl
  match answer,possible with
  | .error e,_ =>
    have logged : Since log (w ++ done ++ []) _ := logged
    rw [List.append_nil] at logged
    exact leavesPure ⟨scans,done,rest,split,between,logged,nofun,fun _ => faultNoted (.fs (.write output rest)) (.error e) rfl⟩
  | .ok 0,possible =>
    obtain ⟨between,kept⟩ := step 0 (Nat.zero_le _) rfl
    rw [← List.append_assoc] at between
    refine leavesPure ⟨kept.trans scans,done,rest,split,?_,?_,nofun,
      fun _ => faultNoted (.fs (.write output rest)) (.ok 0) rfl⟩
    · rw [List.take_zero,List.append_nil] at between
      exact between
    · have logged : Since log (w ++ done ++ []) _ := logged
      rw [List.append_nil] at logged
      exact logged
  | .ok (n + 1),possible =>
    have room : n + 1 ≤ rest.length := possible.1
    obtain ⟨between,kept⟩ := step (n + 1) room rfl
    refine leavesPure ⟨⟨kept.trans scans,done ++ rest.take (n + 1),?_,between,?_⟩,fun _ => ?_⟩
    · rw [split,List.append_assoc,List.take_append_drop]
    · rw [← List.append_assoc]
      exact logged
    · rw [List.length_drop]
      omega

def Front (t : Tree) (s d : Place) (w : Bytes) (pos : Nat) : Prop :=
  s ≠ d → ∀ whole, t.node s = some (.file whole) → w = whole.take pos ∧ pos ≤ whole.length

def Whole (t : Tree) (s d : Place) (w : Bytes) : Prop := s ≠ d → ∀ whole, t.node s = some (.file whole) → w = whole

theorem frontWhole (front : Front t s d w pos)
    (over_ : s ≠ d → ∀ whole, t.node s = some (.file whole) → whole.drop pos = []) : Whole t s d w := by
  intro other whole same
  rw [(front other whole same).1]
  exact List.take_of_length_le (List.drop_eq_nil_iff.mp (over_ other whole same))

theorem frontMore {bytes} (front : Front t s d w pos)
    (next : s ≠ d → ∀ whole, t.node s = some (.file whole) → bytes <+: whole.drop pos) :
    Front t s d (w ++ bytes) (pos + bytes.length) := by
  intro other whole same
  obtain ⟨sofar,room⟩ := front other whole same
  have more := next other whole same
  refine ⟨?_,?_⟩
  · rw [List.take_add,← List.prefix_iff_eq_take.mp more,sofar]
  · have length := more.length_le
    rw [List.length_drop] at length
    omega

def remaining (t : Tree) (s : Place) (input : Fd) (st : Disk) : Nat :=
  (content t s).length - (st.files input).elim 0 Handle.pos

theorem remainingAt {whole st} (between : Between t s d input output w pos st) (same : t.node s = some (.file whole)) :
    remaining t s input st = whole.length - pos := by
  unfold remaining content
  rw [same,between.reading]
  rfl

def FileEnough (rounds : Nat) (t : Tree) (s d : Place) : Prop :=
  transferBuf < rounds ∧ s ≠ d ∧ ∃ whole, t.node s = some (.file whole) ∧ whole.length < rounds

theorem roundBetween {scans moved} (kept : st.1.scans = scans) (between : Between t s d input output w pos st.1)
    (since : Since log w st.2) (front : Front t s d w pos) (enough : ends → FileEnough rounds t s d) :
    (keeping source).Leaves (fun _ => ¬ ends) (fun st' next => Sum.elim
      (fun _ => (st'.1.scans = scans ∧ ∃ w pos, Between t s d input output w pos st'.1 ∧ Since log w st'.2 ∧
        Front t s d w pos) ∧ (ends → remaining t s input st'.1 < remaining t s input st.1))
      (fun result => st'.1.scans = scans ∧ ∃ w pos, Between t s d input output w pos st'.1 ∧ Since log w st'.2 ∧
        (result.2 = none → Whole t s d w) ∧ (result.2 ≠ none → st'.2.faulty = true)) next) st
      (copyRound rounds input output moved) := by
  have started := between
  obtain ⟨disk,now⟩ := st
  dsimp only at kept between since
  have source_ : s ≠ d → disk.tree.node s = t.node s := by
    intro other
    rw [between.tree,t.nodeFill,if_neg (fun both => other both.2)]
  refine leavesAsk fun seen _ => ?_
  cases seen with
  | true =>
    exact leavesPure ⟨kept,w,pos,between,since.same source .cancelled true rfl rfl rfl,nofun,
      fun _ => faultNoted .cancelled true rfl⟩
  | false =>
    have since := since.same source .cancelled false rfl rfl rfl
    refine leavesAsk fun got possible => ?_
    match got,possible with
    | .error e,_ =>
      exact leavesPure ⟨kept,w,pos,between,since.same source (.fs (.read input transferBuf)) (.error e) rfl rfl rfl,nofun,
        fun _ => faultNoted (.fs (.read input transferBuf)) (.error e) rfl⟩
    | .ok bytes,possible =>
      have since := since.same source (.fs (.read input transferBuf)) (.ok bytes) rfl rfl rfl
      obtain ⟨h,found,short,reads⟩ := possible
      have found : disk.files input = some h := found
      rw [between.reading] at found
      cases found
      have read : Between t s d input output w (pos + bytes.length) (disk.after (.read input transferBuf) (.ok bytes)) := by
        refine ⟨between.tree,?_,?_,between.apart⟩
        · show Function.update disk.files input _ output = _
          rw [Function.update_of_ne between.apart.symm,between.writing]
        · show Function.update disk.files input _ input = _
          rw [Function.update_self,between.reading]
          rfl
      have inside : s ≠ d → ∀ whole, t.node s = some (.file whole) →
          bytes <+: whole.drop pos ∧ (bytes = [] → whole.drop pos = []) := by
        intro other whole same
        have node : ((keeping source).next (disk,now) .cancelled false).1.tree.node s = _ := (source_ other).trans same
        dsimp only at reads
        rwa [node] at reads
      cases bytes with
      | nil =>
        refine leavesPure ⟨kept,w,pos,read,since,fun _ => ?_,fun code => absurd rfl code⟩
        exact frontWhole front fun other whole same => (inside other whole same).2 rfl
      | cons b bytes =>
        have more := frontMore front fun other whole same => (inside other whole same).1
        refine leavesThen (writeBetween (b :: bytes) read since fun yes => ?_) fun st' rc held => ?_
        · exact Nat.lt_of_le_of_lt short (enough yes).1
        obtain ⟨scans',done,rest,split,between,since,finished,bad⟩ := held
        have kept : st'.1.scans = scans := scans'.trans kept
        cases rc with
        | some e => exact leavesPure ⟨kept,w ++ done,_,between,since,nofun,fun _ => bad nofun⟩
        | none =>
          rw [finished rfl,List.append_nil] at split
          rw [← split] at between since
          refine leavesAsk fun _ _ => leavesPure ⟨⟨kept,w ++ (b :: bytes),_,between,?_,more⟩,fun yes => ?_⟩
          · exact since.same source (.progress _) _ rfl rfl rfl
          obtain ⟨_,other,whole,same,_⟩ := enough yes
          have room := (more other whole same).2
          show remaining t s input st'.1 < remaining t s input disk
          rw [remainingAt between same,remainingAt started same]
          simp only [List.length_cons] at room ⊢
          omega

theorem bytesBetween {moved} (between : Between t s d input output [] 0 st.1) (since : Since log [] st.2)
    (enough : ends → FileEnough rounds t s d) :
    (keeping source).Leaves (fun _ => ¬ ends) (fun st' result => st'.1.scans = st.1.scans ∧ ∃ w,
      st'.1.tree = t.fill d w ∧ Since log w st'.2 ∧ (result.2 = none → Whole t s d w) ∧
      (result.2 ≠ none → st'.2.faulty = true)) st (copyBytes rounds input output moved) := by
  refine leavesVia (fun st' result => st'.1.scans = st.1.scans ∧ ∃ w pos, Between t s d input output w pos st'.1 ∧
    Since log w st'.2 ∧ (result.2 = none → Whole t s d w) ∧ (result.2 ≠ none → st'.2.faulty = true)) ?_ ?_
  · refine leavesAsk fun made _ => ?_
    have since := since.same source .malloc made rfl rfl rfl
    cases made with
    | false => exact leavesPure ⟨rfl,[],0,between,since,nofun,fun _ => faultNoted .malloc false rfl⟩
    | true =>
      refine leavesDown (fun st' _ => st'.1.scans = st.1.scans ∧ ∃ w pos, Between t s d input output w pos st'.1 ∧
        Since log w st'.2 ∧ Front t s d w pos) (fun st' _ => remaining t s input st'.1) ?_ rounds
        ⟨rfl,[],0,between,since,fun _ whole _ => ⟨rfl,Nat.zero_le _⟩⟩ fun yes => ?_
      · rintro st' moved ⟨kept,w,pos,between,since,front⟩
        exact roundBetween kept between since front enough
      obtain ⟨_,_,whole,same,room⟩ := enough yes
      show remaining t s input st.1 < rounds
      rw [remainingAt between same]
      exact room
  rintro st' result ⟨kept,w,pos,between,since,whole,bad⟩
  refine leavesAsk fun first _ => leavesAsk fun second _ => leavesPure ⟨kept,w,between.tree,?_,whole,fun code => ?_⟩
  · exact (since.same source (.fs (.close input)) first rfl rfl rfl).same source (.fs (.close output)) second rfl rfl rfl
  · show ((st'.2.faulty || _) || _) = true
    rw [bad code]
    rfl

inductive Filed (t : Tree) (s d : Place) : Tree → Bool → Bool → Bytes → Rc → Prop
  | unopened {rc : Rc} (failed : rc ≠ none) : Filed t s d t false false [] rc
  | kept {w : Bytes} {rc : Rc} (opens : Opens t d copyFlags) (whole : rc = none → Whole t s d w) :
    Filed t s d ((opened t d copyFlags).fill d w) true false w rc
  | removed {w : Bytes} {rc : Rc} (opens : Opens t d copyFlags) (failed : rc ≠ none) :
    Filed t s d (((opened t d copyFlags).fill d w).remove d) true true w rc

theorem openedElse (t d flags) {q} (other : q ≠ d) : (opened t d flags).node q = t.node q := by
  unfold opened
  split
  · rw [t.nodeMake,if_neg (fun both => other both.2)]
  · split
    · rw [t.nodeFill,if_neg (fun both => other both.2)]
    · rfl

theorem openedWhole {w} (whole : Whole (opened t d copyFlags) s d w) : Whole t s d w :=
  fun other all same => whole other all ((openedElse t d copyFlags other).trans same)

theorem FileEnough.opened (enough : FileEnough rounds t s d) : FileEnough rounds (opened t d copyFlags) s d := by
  obtain ⟨buffer,other,whole,same,room⟩ := enough
  exact ⟨buffer,other,whole,(openedElse t d copyFlags other).trans same,room⟩

def Log.filed (log : Log) (opened removed : Bool) : Log := { log with opened := log.opened || opened, removed := log.removed || removed }

theorem removeFiled {dst rc existed scans} (kept : st.1.scans = scans) (opens : Opens t (locate dst) copyFlags)
    (tree : st.1.tree = (opened t (locate dst) copyFlags).fill (locate dst) w)
    (since : Since (log.filed true false) w st.2) (whole : rc = none → Whole t s (locate dst) w)
    (bad : rc ≠ none → st.2.faulty = true) :
    (keeping source).Leaves (fun _ => ¬ ends) (fun st' _ => st'.1.scans = scans ∧ ∃ opened removed w,
      Filed t s (locate dst) st'.1.tree opened removed w rc ∧ Since (log.filed opened removed) w st'.2 ∧
      (rc ≠ none → st'.2.faulty = true)) st (removeNew existed rc dst) := by
  unfold removeNew
  have same : st.1.scans = scans ∧ ∃ opened removed w, Filed t s (locate dst) st.1.tree opened removed w rc ∧
      Since (log.filed opened removed) w st.2 ∧ (rc ≠ none → st.2.faulty = true) := by
    refine ⟨kept,true,false,w,?_,since,bad⟩
    rw [tree]
    exact .kept opens whole
  split
  · rename_i failed
    refine leavesAsk fun answer _ => leavesPure ?_
    have noted : ∀ answer, ((keeping source).next st (.fs (.unlink dst)) answer).2.faulty = true := by
      intro answer
      show (st.2.faulty || _) = true
      rw [bad failed.1,Bool.true_or]
    cases answer with
    | error e =>
      obtain ⟨kept,opened,removed,w,filed,since,_⟩ := same
      exact ⟨kept,opened,removed,w,filed,since.same source (.fs (.unlink dst)) (.error e) rfl rfl rfl,fun _ => noted _⟩
    | ok u =>
      refine ⟨kept,true,true,w,?_,⟨?_,?_,?_,fun _ => noted _⟩,fun _ => noted _⟩
      · show Filed t s (locate dst) (st.1.tree.remove (locate dst)) true true w rc
        rw [tree]
        exact .removed opens failed.1
      · show (st.2.opened || false) = (log.opened || true)
        rw [since.opened,Bool.or_false]
        rfl
      · show (st.2.removed || true) = (log.removed || true)
        rw [Bool.or_true,Bool.or_true]
      · show st.2.written ++ [] = log.written ++ w
        rw [List.append_nil,since.written]
        rfl
  · exact leavesPure same

theorem fileFiled (source) (ends : Prop) (src dst moved st)
    (enough : ends → FileEnough rounds st.1.tree (locate src) (locate dst)) :
    (keeping source).Leaves (fun _ => ¬ ends) (fun st' result => st'.1.scans = st.1.scans ∧ ∃ opened removed w,
      Filed st.1.tree (locate src) (locate dst) st'.1.tree opened removed w result.2 ∧
      Since (st.2.filed opened removed) w st'.2 ∧ (result.2 ≠ none → st'.2.faulty = true)) st
      (copyFile rounds src dst moved) := by
  obtain ⟨disk,log⟩ := st
  dsimp only at enough ⊢
  have start : Since (log.filed false false) [] log := by
    refine ⟨(Bool.or_false _).symm,(Bool.or_false _).symm,?_,id⟩
    exact (List.append_nil _).symm
  refine leavesAsk fun first possible => ?_
  match first,possible with
  | .error e,_ =>
    exact leavesPure ⟨rfl,false,false,[],.unopened nofun,start.same source (.fs (.openFile src readonly 0)) (.error e) rfl rfl rfl,
      fun _ => faultNoted (.fs (.openFile src readonly 0)) (.error e) rfl⟩
  | .ok input,possible =>
    have start := start.same source (.fs (.openFile src readonly 0)) (.ok input) rfl rfl rfl
    refine leavesAsk fun there _ => ?_
    have start := start.same source (.fs (.stat dst)) there rfl rfl rfl
    refine leavesAsk fun second possible' => ?_
    match second,possible' with
    | .error e,_ =>
      refine leavesAsk fun closed _ => leavesPure ⟨rfl,false,false,[],.unopened nofun,?_,fun _ => ?_⟩
      · exact (start.same source (.fs (.openFile dst copyFlags 0o644)) (.error e) rfl rfl rfl).same source
          (.fs (.close input)) closed rfl rfl rfl
      · exact faultStays (.fs (.close input)) closed (faultNoted (.fs (.openFile dst copyFlags 0o644)) (.error e) rfl)
    | .ok output,possible' =>
      obtain ⟨fresh,opens⟩ : Function.update disk.files input _ output = none ∧
        Opens (opened disk.tree (locate src) readonly) (locate dst) copyFlags := possible'
      have apart : input ≠ output := by
        rintro rfl
        rw [Function.update_self] at fresh
        contradiction
      rw [openedRead] at opens
      have since : Since (log.filed true false) [] ((((log.note source (.fs (.openFile src readonly 0)) (.ok input)).note source
          (.fs (.stat dst)) there)).note source (.fs (.openFile dst copyFlags 0o644)) (.ok output)) :=
        ⟨by rw [Log.note,start.opened]; simp [Log.filed,opensNew,copyFlags],by rw [Log.note,start.removed]; simp [Log.filed,removes],
          by rw [Log.note,start.written]; simp [Log.filed,writes],fun early => by rw [Log.note,start.faulty early,Bool.true_or]⟩
      refine leavesThen (bytesBetween (t := opened disk.tree (locate dst) copyFlags) (s := locate src) (d := locate dst)
        ⟨?_,?_,?_,apart⟩ since fun yes => (enough yes).opened) ?_
      · show opened (opened disk.tree (locate src) readonly) (locate dst) copyFlags = _
        rw [openedRead,openedNone opens]
      · exact Function.update_self ..
      · show Function.update (Function.update disk.files input _) output _ input = _
        rw [Function.update_of_ne apart,Function.update_self]
        rfl
      rintro st' ⟨moved',rc⟩ ⟨kept,w,tree,since,whole,bad⟩
      refine leavesThen (removeFiled (s := locate src) kept opens tree since (fun none_ => openedWhole (whole none_)) bad) ?_
      intro st'' _ held
      exact leavesPure held

end File

/- The destination was opened, was removed again, and what was written to it. -/
def Opened : Prop := ∃ e ∈ trace, opensNew e.1 e.2 = true
def Removed : Prop := ∃ e ∈ trace, removes e.1 e.2 = true
def written : Bytes := trace.flatMap fun e => writes e.1 e.2
def Faulty : Prop := ∃ e ∈ trace, fails source e.1 e.2 = true

theorem notedLog (source log trace) :
    Program.noted (Log.note source) log trace =
      ⟨log.faulty || trace.any fun e => fails source e.1 e.2,log.opened || trace.any fun e => opensNew e.1 e.2,
       log.removed || trace.any fun e => removes e.1 e.2,log.written ++ written trace⟩ := by
  induction trace generalizing log with
  | nil => simp [Program.noted,written]
  | cons e rest ih =>
    have later : Program.noted (Log.note source) log (e :: rest) = Program.noted (Log.note source) (log.note source e.1 e.2) rest := rfl
    rw [later,ih]
    simp [Log.note,written,Bool.or_assoc]

theorem keptNode {d} (opens : Opens t d copyFlags) :
    ((opened t d copyFlags).fill d w).node d = t.node d ↔ t.node d = some .other ∨ t.node d = some (.file w) := by
  by_cases missing : t.node d = none
  · have made : (opened t d copyFlags).node d = some (.file []) := by
      rw [openedMissing missing,t.nodeMake,if_pos ⟨opensFree opens missing,rfl⟩]
    rw [Hierarchy.nodeFill,if_pos ⟨Hierarchy.isFile.mpr ⟨_,made⟩,rfl⟩,missing]
    simp
  rw [openedThere missing,Hierarchy.fillFill,t.nodeFill]
  by_cases file : t.IsFile d
  · obtain ⟨old,same⟩ := Hierarchy.isFile.mp file
    rw [if_pos ⟨file,rfl⟩,same]
    simp [eq_comm]
  rw [if_neg (fun both => file both.1)]
  refine iff_of_true rfl ?_
  cases same : t.node d with
  | none => exact absurd same missing
  | some entry =>
    cases entry with
    | dir => exact absurd same (opensLeaf opens)
    | file bytes => exact absurd (Hierarchy.isFile.mpr ⟨bytes,same⟩) file
    | other => exact .inl rfl

theorem removedNode {d} (opens : Opens t d copyFlags) :
    (((opened t d copyFlags).fill d w).remove d).node d = t.node d ↔ t.node d = none := by
  rw [Hierarchy.nodeRemove]
  have leaf : ((opened t d copyFlags).fill d w).node d ≠ some .dir := by
    rw [Hierarchy.nodeFill]
    split
    · simp
    by_cases missing : t.node d = none
    · rw [openedMissing missing,t.nodeMake,if_pos ⟨opensFree opens missing,rfl⟩]
      simp
    rw [openedThere missing,t.nodeFill]
    split
    · simp
    · exact opensLeaf opens
  rw [if_pos ⟨leaf,rfl⟩]
  exact eq_comm

/- A failed copy leaves its destination as it was if it did not open it, if it removed what it
made, or if opening and writing it made no difference. -/
theorem failedLeaves (rounds : Nat) (src dst : Bytes) (moved : Nat) (disk : Disk) (trace : List (Exchange Work.Answer))
    (moved' : Nat) (e : Errno) (run : Program.Runs (copyFile rounds src dst moved) trace (some (moved',some e)))
    (genuine : filesystem.Genuine disk trace) :
    (filesystem.after disk trace).tree.node (locate dst) = disk.tree.node (locate dst) ↔
      ¬ Opened trace ∨ (Removed trace ∧ disk.tree.node (locate dst) = none) ∨
      (¬ Removed trace ∧ (disk.tree.node (locate dst) = some .other ∨
        disk.tree.node (locate dst) = some (.file (written trace)))) := by
  have held := besideRuns (fileFiled src False src dst moved (disk,Log.blank) nofun) run genuine
  obtain ⟨_,opened,removed,w,filed,since,_⟩ := held
  rw [notedLog] at since
  have isOpened : Opened trace ↔ opened = true := by
    have same : (trace.any fun e => opensNew e.1 e.2) = opened := since.opened
    rw [← same,List.any_eq_true]
    rfl
  have isRemoved : Removed trace ↔ removed = true := by
    have same : (trace.any fun e => removes e.1 e.2) = removed := since.removed
    rw [← same,List.any_eq_true]
    rfl
  have wrote : written trace = w := since.written
  rw [isOpened,isRemoved,wrote]
  generalize (filesystem.after disk trace).tree = after at filed
  cases filed with
  | unopened failed => simp
  | kept opens whole =>
    rw [keptNode opens]
    simp
  | removed opens failed =>
    rw [removedNode opens]
    simp

def single : Tree := Hierarchy.bare.make [ascii "a"] (.file [1])
def double : Tree := single.make [ascii "b"] (.file [2])
def resting (t : Tree) : Disk := ⟨t,fun _ => none,fun _ => none⟩


def unreadable (there : Except Errno Stat) : (call : Work) → call.Answer
  | .fs (.openFile _ flags _) => .ok (if flags.trunc then 4 else 3)
  | .fs (.stat _) => there
  | .fs (.read ..) => .error .eio
  | .fs (.unlink _) => .ok ()
  | call => smoothly call

def copying (there : Except Errno Stat) : Work.Trace :=
  ((copyFile 9 (ascii "/a") (ascii "/b") 0).play (unreadable there)).1

theorem copyingRuns (there) :
    Program.Runs (copyFile 9 (ascii "/a") (ascii "/b") 0) (copying there) (some (0,some .eio)) := by
  have run := Program.playRuns (unreadable there) (copyFile 9 (ascii "/a") (ascii "/b") 0)
  have ended : ((copyFile 9 (ascii "/a") (ascii "/b") 0).play (unreadable there)).2 = some (0,some .eio) := by
    cases there <;> rfl
  rwa [ended] at run

theorem copyingSingle : filesystem.Genuine (resting single) (copying (.error .enoent)) := by
  refine ⟨⟨rfl,?_⟩,trivial,⟨rfl,?_⟩,trivial,trivial,trivial,trivial,trivial,?_,trivial⟩
  · decide +kernel
  · decide +kernel
  · show _ ≠ none ∧ _ ≠ some Entry.dir
    decide +kernel

theorem failedLeavesNothing : single.node (locate (ascii "/b")) = none ∧
    ((filesystem.after (resting single) (copying (.error .enoent))).tree.node (locate (ascii "/b")) =
        single.node (locate (ascii "/b")) ↔
      ¬ Opened (copying (.error .enoent)) ∨
      (Removed (copying (.error .enoent)) ∧ single.node (locate (ascii "/b")) = none) ∨
      (¬ Removed (copying (.error .enoent)) ∧ (single.node (locate (ascii "/b")) = some .other ∨
        single.node (locate (ascii "/b")) = some (.file (written (copying (.error .enoent))))))) :=
  ⟨by decide +kernel,failedLeaves 9 _ _ 0 (resting single) _ 0 .eio (copyingRuns _) copyingSingle⟩

theorem failedTruncates : Program.Runs (copyFile 9 (ascii "/a") (ascii "/b") 0) (copying (.ok plainFile)) (some (0,some .eio)) ∧
    filesystem.Genuine (resting double) (copying (.ok plainFile)) ∧
    double.node (locate (ascii "/b")) = some (.file [2]) ∧
    (filesystem.after (resting double) (copying (.ok plainFile))).tree.node (locate (ascii "/b")) = some (.file []) := by
  refine ⟨copyingRuns _,⟨⟨rfl,?_⟩,?_,⟨rfl,?_⟩,trivial,trivial,trivial,trivial,trivial,trivial⟩,?_,?_⟩
  · decide +kernel
  · show Shows double (locate (ascii "/b")) plainFile.mode
    decide +kernel
  · decide +kernel
  · decide +kernel
  · decide +kernel

end OpenPs3Ftp.Copying
