import OpenPs3Ftp.Commands.Discipline

/-! Which text a path command resolves, and that nothing of the result is lost on its
way into a call, a field of the session or a field of a job. -/
namespace OpenPs3Ftp.Commands
open Lib Text Resolve Fs Session Dispatch Program

def takesPath : Command → Bool
  | .cwd | .cdup | .mkd | .rmd | .dele | .rnfr | .rnto | .cpfr | .cpto | .site | .size | .mdtm | .stat
  | .list | .nlst | .mlsd | .mlst | .mfmt | .retr | .stor | .appe => true
  | _ => false

def Aims (s : Server) (c : Client) (arg : Option Bytes) : Call → Prop
  | .fs call => ∀ path ∈ call.paths, resolveArg s c arg = some path ∨
      (∃ full, resolveArg s c arg = some full ∧ pathParent full maxPath = some path) ∨
      c.haveRnfr = true ∧ path = c.rnfr.text
  | .dispatch job =>
    if job.op = .copy then job.path = c.cpfr ∧ resolveArg s c arg = some job.dst.text
    else resolveArg s c arg = some job.path.text
  | _ => True

variable {s : Server} {c : Client} {arg : Option Bytes} {job : Job}

theorem aimsData (data : job.op ≠ .copy)
    (resolved : resolveArg s c arg = some job.path.text) : Aims s c arg (.dispatch job) := by
  simpa only [Aims,if_neg data] using resolved

theorem aimsCopy (copy : job.op = .copy)
    (source : job.path = c.cpfr) (resolved : resolveArg s c arg = some job.dst.text) :
    Aims s c arg (.dispatch job) := by
  simpa only [Aims,if_pos copy] using ⟨source,resolved⟩

structure Settled (s : Server) (c : Client) (arg : Option Bytes) (c' : Client) : Prop where
  cwd : c'.cwd = c.cwd ∨ ∃ path, resolveArg s c arg = some path ∧ c'.cwd.text = visible s.root.text path
  rnfr : c'.rnfr = c.rnfr ∨ resolveArg s c arg = some c'.rnfr.text
  cpfr : c'.cpfr = c.cpfr ∨ resolveArg s c arg = some c'.cpfr.text

theorem settledSame {d} (same : d.cwd = c.cwd ∧ d.rnfr = c.rnfr ∧ d.cpfr = c.cpfr) : Settled s c arg d :=
  ⟨.inl same.1,.inl same.2.1,.inl same.2.2⟩

abbrev Aimed {α : Type} (s : Server) (c : Client) (arg : Option Bytes) (post : α → Prop) (p : Handler α) : Prop :=
  p.Obeys (fun _ _ => True) (Aims s c arg) post

variable {path : Bytes}

theorem printResolved (resolved : resolveArg s c arg = some path) : (Buffer.print 1023 path).text = path :=
  Buffer.printShort (Nat.le_of_lt_succ (resolveArgShort resolved))

section Combinators
variable {s : Server} {c d : Client} {arg : Option Bytes} {post : Client → Prop}

theorem aimedCall {α : Type} {post : α → Prop} {call} {k : Answer call → Handler α} (aims : Aims s c arg call)
    (next : ∀ answer, Aimed s c arg post (k answer)) : Aimed s c arg post (invoke call >>= k) :=
  ⟨aims,fun answer _ => next answer⟩

theorem aimedLine {text : Bytes} {about} {k : Unit → Handler Client} (next : Aimed s c arg post (k ())) :
    Aimed s c arg post (invoke (.send about text) >>= k) := aimedCall trivial fun _ => next

theorem aimedAnswering {code msg} (next : post d) : Aimed s c arg post (answering code msg d) :=
  aimedLine next

theorem aimedFailing {failure} (next : post d) : Aimed s c arg post (failing failure d) := by
  cases failure with
  | known e => exact aimedLine next
  | stale => exact ⟨trivial,fun e _ => aimedLine next⟩

theorem aimedFree {k} (next : Aimed s c arg post (k ())) : Aimed s c arg post (jobFree job >>= k) := by
  unfold jobFree
  cases job.pasvFd with
  | none => exact ⟨trivial,fun _ _ => next⟩
  | some fd => exact ⟨trivial,fun _ _ => ⟨trivial,fun _ _ => next⟩⟩

theorem aimedTransfer {op nlst mlsd reply150} (data : op ≠ .copy) (resolved : resolveArg s c arg = some path)
    (keep : ∀ d, d.cwd = c.cwd ∧ d.rnfr = c.rnfr ∧ d.cpfr = c.cpfr → post d) :
    Aimed s c arg post (startTransfer s c op path nlst mlsd reply150) := by
  have stay : ∀ code msg, Aimed s c arg post (answering code msg c) := fun _ _ => aimedAnswering (keep c ⟨rfl,rfl,rfl⟩)
  refine transferMeets (r := ()) rfl (stay _ _) (stay _ _) fun _ _ => ⟨trivial,stay _ _,?_⟩
  rintro id _ _ rfl -
  exact ⟨aimsData data (resolved.trans (congrArg some (printResolved resolved).symm)),aimedLine (keep _ ⟨rfl,rfl,rfl⟩),
    aimedFree (aimedAnswering (keep _ ⟨rfl,rfl,rfl⟩))⟩

end Combinators

theorem settledKept : Settled s c arg c := settledSame ⟨rfl,rfl,rfl⟩

theorem aimedCopy (resolved : resolveArg s c arg = some path) :
    Aimed s c arg (Settled s c arg) (startCopy { c with haveCpfr := false } path) := by
  have spent : ∀ job, Settled s c arg { c with haveCpfr := false, job } := fun _ => settledSame ⟨rfl,rfl,rfl⟩
  refine copyMeets (r := ()) rfl trivial (aimedAnswering (spent _)) ?_
  rintro id _ _ rfl -
  exact ⟨aimsCopy rfl (Buffer.printSelf c.cpfr) (resolved.trans (congrArg some (printResolved resolved).symm)),spent _,
    aimedFree (aimedAnswering (spent _))⟩

section Every
variable {command : Command} {arg : Bytes} (paths : takesPath command = true)
include paths

theorem meantAim (meant : Meant s c command (some arg) path) : resolveArg s c (aim command arg) = some path := by
  cases command
  case stou => cases paths
  all_goals exact meant

theorem ordinaryAims {call} (fine : Ordinary s c command (some arg) call) : Aims s c (aim command arg) call := by
  cases call
  case fs call =>
    exact fun path member => (ordinaryPaths fine path member).imp (meantAim paths)
      (Or.imp_left fun ⟨full,meant,parent,_⟩ => ⟨full,meantAim paths meant,parent⟩)
  case dispatch => cases fine
  all_goals trivial

theorem returnsSettled {d} (returns : Returns s c (some arg) command d) : Settled s c (aim command arg) d := by
  have stored : ∀ {path}, Meant s c command (some arg) path →
      resolveArg s c (aim command arg) = some (Buffer.print 1023 path).text := fun meant =>
    (meantAim paths meant).trans (congrArg some (printResolved (meantAim paths meant)).symm)
  cases returns
  case moved path moving meant =>
    have resolved := meantAim paths meant
    exact ⟨.inr ⟨path,resolved,Buffer.printShort (visibleShort _ (resolveArgShort resolved))⟩,.inl rfl,.inl rfl⟩
  case rnfr path meant => exact ⟨.inl rfl,.inr (stored meant),.inl rfl⟩
  case cpfr path meant => exact ⟨.inl rfl,.inl rfl,.inr (stored meant)⟩
  all_goals exact settledSame ⟨rfl,rfl,rfl⟩

end Every

theorem aimedRun {command} (paths : takesPath command = true) (arg) :
    Aimed s c (aim command arg) (Settled s c (aim command arg)) (command.run s c (some arg)) := by
  refine course { done := fun _ => returnsSettled paths, failing := fun _ _ returns => aimedFailing (returnsSettled paths returns),
                  ask := fun call k fine next => ⟨ordinaryAims paths fine,fun answer _ => next answer⟩, pass := ?_, abor := ?_,
                  stop := fun _ => aimedLine ⟨trivial,fun _ _ => settledKept⟩, transfer := ?_, copy := ?_ }
  · rintro rfl; cases paths
  · rintro rfl; cases paths
  · intro _ op path nlst mlsd reply150 data meant _
    exact aimedTransfer data (meantAim paths meant) fun _ => settledSame
  · rintro rfl _ _ path meant; exact aimedCopy (meantAim paths meant)

end OpenPs3Ftp.Commands
