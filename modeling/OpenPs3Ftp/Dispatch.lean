import OpenPs3Ftp.Commands.Transfer

/-! The command registry of `dispatch.c` and its built-in contents. Slots are used
from the first on and never freed, so the used ones are a list. -/
namespace OpenPs3Ftp.Dispatch
open Lib Text Session Commands

def dispatchCap : Nat := 64
def nameSize : Nat := 8

structure Table (Handle : Type) where
  entries : List (Bytes × Handle)
  room : entries.length ≤ dispatchCap
  distinct : (entries.map (·.1)).Nodup
  named : ∀ entry ∈ entries, entry.1 ≠ [] ∧ entry.1.length < nameSize

namespace Table
variable {Handle : Type}

def empty : Table Handle := ⟨[],Nat.zero_le _,by simp,by simp⟩

def lookup (table : Table Handle) (name : Bytes) : Option Handle :=
  (table.entries.find? (·.1 = name)).map (·.2)

def replaced (name : Bytes) (handle : Handle) (entries : List (Bytes × Handle)) : List (Bytes × Handle) :=
  entries.map fun entry => if entry.1 = name then (name,handle) else entry

theorem replacedNames (name handle) (entries : List (Bytes × Handle)) :
    (replaced name handle entries).map (·.1) = entries.map (·.1) := by
  simp only [replaced,List.map_map]
  refine List.map_congr_left fun entry _ => ?_
  simp only [Function.comp]
  split
  · exact Eq.symm ‹_›
  · rfl

/- `opftp_dispatch_register`: nothing when the name or the table does not fit. -/
def register (table : Table Handle) (name : Bytes) (handle : Handle) : Option (Table Handle) :=
  let up := name.map toupper
  if fits : up ≠ [] ∧ up.length < nameSize then
    if known : up ∈ table.entries.map (·.1) then
      some ⟨replaced up handle table.entries,by simpa [replaced] using table.room,
        by rw [replacedNames]; exact table.distinct,by
          intro entry member
          obtain ⟨old,found,rfl⟩ := List.mem_map.mp member
          split
          · exact fits
          · exact table.named old found⟩
    else if free : table.entries.length < dispatchCap then
      some ⟨table.entries ++ [(up,handle)],by simp only [List.length_append,List.length_singleton]; omega,by
          rw [List.map_append,List.nodup_append]
          refine ⟨table.distinct,by simp,?_⟩
          rintro a member b single rfl
          rw [List.mem_singleton.mp single] at member
          exact known member,List.forall_mem_append.mpr ⟨table.named,List.forall_mem_singleton.mpr fits⟩⟩
    else none
  else none

/- Callers ignore the result, so a refused registration changes nothing. -/
def registerAll (table : Table Handle) : List (String × Handle) → Table Handle
  | [] => table
  | (name,handle) :: rest => ((table.register (ascii name) handle).getD table).registerAll rest

theorem registerNew {table : Table Handle} {name : Bytes} (nonempty : name.map toupper ≠ [])
    (short : (name.map toupper).length < nameSize) (unknown : name.map toupper ∉ table.entries.map (·.1))
    (free : table.entries.length < dispatchCap) (handle) :
    ∃ t, table.register name handle = some t ∧ t.entries = table.entries ++ [(name.map toupper,handle)] := by
  simp only [register,dif_pos (And.intro nonempty short),dif_neg unknown,dif_pos free]
  exact ⟨_,rfl,rfl⟩

theorem registerAllNew {table : Table Handle} {new : List (String × Handle)}
    (fresh : (table.entries.map (·.1) ++ new.map (fun e => ascii e.1)).Nodup)
    (room : table.entries.length + new.length ≤ dispatchCap)
    (form : ∀ e ∈ new, (ascii e.1).map toupper = ascii e.1 ∧ ascii e.1 ≠ [] ∧ (ascii e.1).length < nameSize) :
    (table.registerAll new).entries = table.entries ++ new.map (fun e => (ascii e.1,e.2)) := by
  induction new generalizing table with
  | nil => simp [registerAll]
  | cons e new ih =>
    obtain ⟨upper,nonempty,short⟩ := form e (by simp)
    have unknown : ascii e.1 ∉ table.entries.map (·.1) := by
      intro known
      exact (List.nodup_append.mp fresh).2.2 _ known _ (by simp) rfl
    have free : table.entries.length < dispatchCap := by
      simp only [List.length_cons] at room
      omega
    have added := registerNew (by rwa [upper]) (by rwa [upper]) (by rwa [upper]) free e.2
    rw [upper] at added
    obtain ⟨t,registered,grown⟩ := added
    have rest := @ih t (by simpa [grown] using fresh)
      (by simp only [grown,List.length_append,List.length_cons,List.length_nil] at room ⊢; omega)
      (fun d member => form d (by simp [member]))
    simp only [registerAll,registered,Option.getD_some,rest,grown]
    simp

end Table

inductive Command where
  | user | pass | quit | noop | syst | feat | help | opts | acct | allo | type | mode | stru | stop
  | pwd | cwd | cdup | mkd | rmd | dele | rnfr | rnto | cpfr | cpto | site | size | mdtm | rest | stat
  | pasv | port | epsv | eprt | auth | pbsz | prot | abor | list | nlst | mlsd | mlst | mfmt | stou
  | retr | stor | appe
  deriving DecidableEq, Repr

def Command.run (s : Server) (command : Command) (c : Client) (param : Option Bytes) : Handler Client :=
  match command with
  | .user => cmdUser c param
  | .pass => cmdPass s c param
  | .quit => cmdQuit c
  | .noop => cmdNoop c
  | .syst => cmdSyst c
  | .feat => cmdFeat s c
  | .help => cmdHelp c
  | .opts => cmdOpts c param
  | .acct => cmdAcct c
  | .allo => cmdAllo c
  | .type => cmdType c param
  | .mode => cmdMode c param
  | .stru => cmdStru c param
  | .stop => cmdStop c
  | .pwd => cmdPwd c
  | .cwd => cmdCwd s c param
  | .cdup => cmdCdup s c
  | .mkd => cmdMkd s c param
  | .rmd => cmdRmd s c param
  | .dele => cmdDele s c param
  | .rnfr => cmdRnfr s c param
  | .rnto => cmdRnto s c param
  | .cpfr => cmdCpfr s c param
  | .cpto => cmdCpto s c param
  | .site => cmdSite s c param
  | .size => cmdSize s c param
  | .mdtm => cmdMdtm s c param
  | .rest => cmdRest c param
  | .stat => cmdStat s c param
  | .pasv => cmdPasv s c
  | .port => cmdPort c param
  | .epsv => cmdEpsv s c param
  | .eprt => cmdEprt s c param
  | .auth => cmdAuth s c param
  | .pbsz => cmdPbsz c param
  | .prot => cmdProt c param
  | .abor => cmdAbor c
  | .list => cmdList s c param
  | .nlst => cmdNlst s c param
  | .mlsd => cmdMlsd s c param
  | .mlst => cmdMlst s c param
  | .mfmt => cmdMfmt s c param
  | .stou => cmdStou s c
  | .retr => cmdRetr s c param
  | .stor => cmdStor s c param
  | .appe => cmdAppe s c param

/- The registrations of `opftp_commands_init`, in order; STOP only on request. -/
def sessionCommands : List (String × Command) :=
  [("USER",.user),("PASS",.pass),("QUIT",.quit),("NOOP",.noop),("SYST",.syst),("FEAT",.feat),
   ("HELP",.help),("OPTS",.opts),("ACCT",.acct),("ALLO",.allo),("TYPE",.type),("MODE",.mode),
   ("STRU",.stru)]

def pathCommands : List (String × Command) :=
  [("PWD",.pwd),("XPWD",.pwd),("CWD",.cwd),("XCWD",.cwd),("CDUP",.cdup),("XCUP",.cdup),("MKD",.mkd),
   ("XMKD",.mkd),("RMD",.rmd),("XRMD",.rmd),("DELE",.dele),("RNFR",.rnfr),("RNTO",.rnto),("CPFR",.cpfr),
   ("CPTO",.cpto),("SITE",.site),("SIZE",.size),("MDTM",.mdtm),("REST",.rest),("STAT",.stat)]

def dataCommands : List (String × Command) :=
  [("PASV",.pasv),("PORT",.port),("EPSV",.epsv),("EPRT",.eprt),("AUTH",.auth),("PBSZ",.pbsz),
   ("PROT",.prot),("ABOR",.abor),("LIST",.list),("NLST",.nlst),("MLSD",.mlsd),("MLST",.mlst),
   ("MFMT",.mfmt),("STOU",.stou),("RETR",.retr),("STOR",.stor),("APPE",.appe)]

def builtin (allowStop : Bool) : List (String × Command) :=
  sessionCommands ++ (if allowStop then [("STOP",.stop)] else []) ++ pathCommands ++ dataCommands

def commandsInit (s : Server) : Table Command := Table.empty.registerAll (builtin s.allowStop)

set_option maxRecDepth 4000 in
theorem builtinForm (allowStop) : ((builtin allowStop).map (fun e => ascii e.1)).Nodup ∧
    (builtin allowStop).length ≤ dispatchCap ∧ ∀ e ∈ builtin allowStop,
      (ascii e.1).map toupper = ascii e.1 ∧ ascii e.1 ≠ [] ∧ (ascii e.1).length < nameSize := by
  cases allowStop <;> decide

theorem commandsInitEntries (s : Server) :
    (commandsInit s).entries = (builtin s.allowStop).map (fun e => (ascii e.1,e.2)) := by
  obtain ⟨distinct,room,form⟩ := builtinForm s.allowStop
  have filled := @Table.registerAllNew _ Table.empty (builtin s.allowStop)
  exact filled (by simpa [Table.empty] using distinct) (by simpa [Table.empty] using room) form

theorem lookupBuiltin {s name command} (found : (commandsInit s).lookup name = some command) :
    ∃ entry ∈ builtin s.allowStop, name = ascii entry.1 ∧ command = entry.2 := by
  simp only [Table.lookup,Option.map_eq_some_iff] at found
  obtain ⟨pair,found,rfl⟩ := found
  have same : pair.1 = name := by simpa using List.find?_some found
  have member := List.mem_of_find?_eq_some found
  rw [commandsInitEntries] at member
  obtain ⟨entry,listed,rfl⟩ := List.mem_map.mp member
  exact ⟨entry,listed,same.symm,rfl⟩

section Lines
variable {σ Handle : Type} (table : Table Handle) (run : Handle → σ → Option Bytes → Handler σ)
  (view : σ → Client)

def dispatchCall (st : σ) (name : Bytes) (param : Option Bytes) : Handler (Option σ) :=
  match table.lookup name with
  | none => return none
  | some handle => do
    invoke (.enter name (view st))
    return some (← run handle st param)

def preloginNames : List Bytes :=
  [ascii "USER",ascii "PASS",ascii "QUIT",ascii "HELP",ascii "FEAT",ascii "SYST",ascii "NOOP",
   ascii "OPTS",ascii "AUTH",ascii "PBSZ",ascii "PROT"]

def preloginCommand (name : Bytes) : Bool := name ∈ preloginNames
def commandName (line : Bytes) : Bytes := ((skipSpaces line).takeWhile (· ≠ space)).take (nameSize - 1)
def lineParam (line : Bytes) : Bytes := skipSpaces ((skipSpaces line).drop (commandName line).length)

def processLine (st : σ) (line : Bytes) : Handler σ :=
  let name := (commandName line).map toupper
  if name = [] then return st
  else if ¬ (view st).loggedIn ∧ ¬ preloginCommand name then do
    reply 530 (ascii "Not logged in.")
    return st
  else do
    match ← dispatchCall table run view st name (some (lineParam line)) with
    | some st => return st
    | none => do
      reply 502 (ascii "Command not implemented.")
      return st

end Lines

end OpenPs3Ftp.Dispatch
