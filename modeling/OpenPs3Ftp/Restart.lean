import OpenPs3Ftp.Conversation
import OpenPs3Ftp.Recollection

/-! Restart offsets. The ledger beside the session is the offset of the last REST that
was accepted since the last transfer command, or 0; the session keeps an offset longer
when the transfer command was refused. -/
namespace OpenPs3Ftp.Restart
open Lib Text Fs Session Commands Dispatch Program Events Recollection Worker

def transferNames : List String := ["LIST","NLST","MLSD","RETR","STOR","APPE","STOU"]
def Transfers (turn : Turn) : Prop := ∃ name ∈ transferNames, Names turn (ascii name)

instance (turn) : Decidable (Transfers turn) := by unfold Transfers; infer_instance

def note (offset : Nat) (_ : Client) (p : Played) : Nat :=
  if Transfers p.turn then 0
  else if Names p.turn (ascii "REST") ∧ codes p.trace = [decimal 350] then (restOffset (parameter p.turn)).getD offset
  else offset

def restarts (s : Server) : System (Client × Nat) Played := (connection s).watched 0 note

def taken : Exchange Answer → Bool
  | ⟨.dispatch _,sent⟩ => sent
  | _ => false

def Patient (st : Client × Nat) (p : Played) : Prop :=
  Transfers p.turn → st.1.rest ≠ 0 → (deeds p.trace).any taken = true

instance (st p) : Decidable (Patient st p) := by unfold Patient; infer_instance

def Sound (st : Client × Nat) : Prop := st.1.rest = st.2

structure FromStart (job : Job) : Prop where
  truncates : job.op = .stor → (storFlags job).trunc = true
  stays : ∀ fd, seekRest fd job.rest = pure none

theorem fromStart {job} (zero : job.rest = 0) : FromStart job := by
  refine ⟨fun stor => ?_,fun fd => ?_⟩
  · simp [storFlags,stor,zero]
  · rw [seekRest,if_pos zero]

inductive Effect (c : Client) (p : Played) (c' : Client) : Prop where
  | steady (calm : ¬ Transfers p.turn)
      (unheard : ¬ (Names p.turn (ascii "REST") ∧ codes p.trace = [decimal 350])) (same : c'.rest = c.rest)
      (idle : handed p.trace = []) : Effect c p c'
  | set {v} (calm : ¬ Transfers p.turn) (name : Names p.turn (ascii "REST")) (code : codes p.trace = [decimal 350])
      (named : restOffset (parameter p.turn) = some v) (same : c'.rest = v) (idle : handed p.trace = []) : Effect c p c'
  | refused (name : Transfers p.turn) (same : c'.rest = c.rest) (untaken : (deeds p.trace).any taken = false)
      (idle : handed p.trace = []) : Effect c p c'
  | unsent {job} (name : Transfers p.turn) (same : c'.rest = c.rest) (untaken : (deeds p.trace).any taken = false)
      (only : handed p.trace = [job]) (offset : job.rest = c.rest) : Effect c p c'
  | sent {job} (name : Transfers p.turn) (zero : c'.rest = 0) (took : (deeds p.trace).any taken = true)
      (only : handed p.trace = [job]) (offset : job.rest = c.rest) : Effect c p c'

theorem carriesRest {c job} (own : Carries c job) : job.rest = c.rest := by
  obtain ⟨-,op,path,nlst,mlsd,id,-,rfl⟩ := own
  rfl

def transferEntries : List (String × Command) :=
  [("LIST",.list),("NLST",.nlst),("MLSD",.mlsd),("RETR",.retr),("STOR",.stor),("APPE",.appe),("STOU",.stou)]

theorem transfersCommand {turn command} (named : ∀ e ∈ memorable, command = e.2 ↔ Names turn (ascii e.1)) :
    Transfers turn ↔ command ∈ transfers := by
  have listed : ∀ e ∈ transferEntries, e ∈ memorable := by decide
  have names : transferNames = transferEntries.map (·.1) := rfl
  have commands : transfers = transferEntries.map (·.2) := rfl
  constructor
  · rintro ⟨name,member,is⟩
    rw [names] at member
    obtain ⟨e,entry,rfl⟩ := List.mem_map.mp member
    rw [(named e (listed e entry)).mpr is,commands]
    exact List.mem_map_of_mem entry
  intro member
  rw [commands] at member
  obtain ⟨e,entry,rfl⟩ := List.mem_map.mp member
  exact ⟨e.1,by rw [names]; exact List.mem_map_of_mem entry,(named e (listed e entry)).mp rfl⟩

theorem turnEffect {s c c' p} (step : (connection s).step c p c') : Effect c p c' := by
  cases turnTurned step with
  | aside idle same deaf =>
    have offset : c'.rest = c.rest := congrArg Memory.rest same
    have untaken : (deeds p.trace).any taken = false := by rw [idle]; rfl
    by_cases transfer : Transfers p.turn
    · exact .refused transfer offset untaken (handedNone idle)
    · refine .steady transfer (fun heard => ?_) offset (handedNone idle)
      exact unaccepted (deaf ("REST",.rest) (by decide) heard.1).no heard.2
  | dropped turn idle same =>
    refine .steady ?_ ?_ (congrArg Memory.rest same) (handedNone idle)
    · rw [turn]
      rintro ⟨name,-,is⟩
      exact is
    · rw [turn]
      exact fun heard => heard.1
  | @entered name command trace logged named begun does =>
    have seen : deeds p.trace = deeds trace ∧ codes p.trace = codes trace := by
      rw [begun]
      exact ⟨rfl,rfl⟩
    have isTransfer := transfersCommand named
    have isRest := named ("REST",.rest) (by decide)
    have none_ : command ∉ transfers → handed p.trace = [] := fun other =>
      (congrArg (List.filterMap dataJob) seen.1).trans (does.handsNone other)
    have other : command ∉ transfers → command ≠ .rest → c'.rest = c.rest → Effect c p c' :=
      fun calm quiet same => .steady (fun is => calm (isTransfer.mp is)) (fun is => quiet (isRest.mpr is.1)) same (none_ calm)
    cases does with
    | pasv result | epsv result | port result | eprt result | rnto result | cpto result =>
      exact other (by decide) (by decide) (by cases result <;> rfl)
    | transfer which result =>
      have name := isTransfer.mpr which
      cases result with
      | refused no =>
        have idle := seen.1.trans no.idle
        exact .refused name rfl (by rw [idle]; rfl) (handedNone idle)
      | unsent own sent =>
        have only := seen.1.trans sent
        exact .unsent name rfl (by rw [only]; rfl) (handedOne own only) (carriesRest own)
      | sent own sent =>
        have only := seen.1.trans sent
        exact .sent name rfl (by rw [only]; rfl) (handedOne own only) (carriesRest own)
    | unrest no bad =>
      exact .steady (fun is => absurd (isTransfer.mp is) (by decide))
        (fun heard => unaccepted no (seen.2.symm.trans heard.2)) rfl (none_ (by decide))
    | rest good idle code =>
      exact .set (fun is => absurd (isTransfer.mp is) (by decide)) (isRest.mp rfl) (seen.2.trans code) good rfl
        (none_ (by decide))
    | unrnfr | uncpfr | rnfr | cpfr => exact other (by decide) (by decide) rfl

theorem noteTransfer {offset c p} (name : Transfers p.turn) : note offset c p = 0 := if_pos name

theorem stepSound {s st st' p} (sound : Sound st) (step : (restarts s).step st p st') : Sound st' ↔ Patient st p := by
  obtain ⟨c,offset⟩ := st
  obtain ⟨c',offset'⟩ := st'
  obtain ⟨moved,noted⟩ := step
  obtain rfl : offset' = note offset c p := noted
  have here : c.rest = offset := sound
  have refused : Transfers p.turn → c'.rest = c.rest → (deeds p.trace).any taken = false →
      (Sound (c',note offset c p) ↔ Patient (c,offset) p) := by
    intro name same untaken
    simp only [Sound,Patient,noteTransfer name,same,untaken,Bool.false_eq_true,imp_false,not_not]
    exact ⟨fun zero _ => zero,fun calm => calm name⟩
  cases turnEffect moved with
  | steady calm unheard same =>
    have now : note offset c p = offset := by rw [note,if_neg calm,if_neg unheard]
    exact ⟨fun _ name => absurd name calm,fun _ => by rw [Sound,now]; exact same.trans here⟩
  | set calm name code named same =>
    have now : note offset c p = c'.rest := by rw [note,if_neg calm,if_pos ⟨name,code⟩,named]; exact same.symm
    exact ⟨fun _ name => absurd name calm,fun _ => now.symm⟩
  | refused name same untaken | unsent name same untaken => exact refused name same untaken
  | sent name zero took => exact ⟨fun _ _ _ => took,fun _ => zero.trans (@noteTransfer offset c p name).symm⟩

theorem offsetUsedOnce (s : Server) (st : Client × Nat) (reached : (restarts s).Reach Patient st) :
    Sound st ∧ ∀ p st', (restarts s).step st p st' → (Sound st' ↔ Patient st p) ∧
      (Transfers p.turn → Patient st p → st'.1.rest = 0) ∧
      ∀ job sent, ⟨.dispatch job,sent⟩ ∈ p.trace → job.op ≠ .copy → job.rest = st.2 ∧ (st.2 = 0 → FromStart job) := by
  have sound : Sound st := by
    refine System.invariant ?_ (fun _ _ _ sound calm step => (stepSound sound step).mpr calm) reached
    rintro ⟨c,offset⟩ ⟨⟨peer,greeting,run⟩,fresh⟩
    obtain rfl : c = _ := acceptRuns run
    obtain rfl : offset = 0 := fresh
    exact rfl
  refine ⟨sound,fun p st' step => ⟨stepSound sound step,fun name calm => ?_,fun job sent member data => ?_⟩⟩
  · have next : st'.1.rest = st'.2 := (stepSound sound step).mpr calm
    rw [next,step.2]
    exact noteTransfer name
  have carried : job.rest = st.1.rest := by
    have here := handedMember member data
    cases turnEffect step.1 with
    | steady _ _ _ idle | set _ _ _ _ _ idle | refused _ _ _ idle =>
      rw [idle] at here
      cases here
    | unsent _ _ _ only offset | sent _ _ _ only offset =>
      rw [only,List.mem_singleton] at here
      exact here ▸ offset
  have known : job.rest = st.2 := carried.trans sound
  exact ⟨known,fun zero => fromStart (known.trans zero)⟩

@[irreducible] def offered : Client × Nat :=
  converse house note (visitor,0) (words (.ok plainFile) ["USER a","PASS b","PASV","REST 5"])

theorem offeredAgreed : Agreed house note Patient (visitor,0)
    (words (.ok plainFile) ["USER a","PASS b","PASV","REST 5"]) := by decide +kernel

theorem offeredReached : (restarts house).Reach Patient offered := by
  unfold offered
  exact converseReach (newcomerReach .unspec rfl) offeredAgreed

def fetching : Utterance := ⟨"RETR f",obliging (.ok plainFile)⟩

theorem offsetUsedOnceFetch : ∃ job, ⟨.dispatch job,true⟩ ∈ (fetching.played house offered.1).trace ∧
    job.rest = 5 ∧ (conversed house note offered fetching).1.rest = 0 := by
  have step : (restarts house).step offered (fetching.played house offered.1)
      (conversed house note offered fetching) := saidStep (by decide +kernel)
  obtain ⟨job,member,data⟩ := @tookSome (fun job => decide (job.op ≠ .copy)) (fetching.played house offered.1).trace
    (by decide +kernel)
  obtain ⟨-,after,used⟩ := (offsetUsedOnce house offered offeredReached).2 _ _ step
  have five : offered.2 = 5 := by decide +kernel
  exact ⟨job,member,(used job true member (of_decide_eq_true data)).1.trans five,after (by decide +kernel) (by decide +kernel)⟩

@[irreducible] def stale : Client × Nat :=
  converse house note (visitor,0) (words (.ok plainFile) ["USER a","PASS b","REST 5","RETR f","PASV"])

theorem staleAgreed : Agreed house note (fun _ _ => True) (visitor,0)
    (words (.ok plainFile) ["USER a","PASS b","REST 5","RETR f","PASV"]) := by decide +kernel

theorem staleReached : (restarts house).Reach (fun _ _ => True) stale := by
  unfold stale
  exact converseReach (newcomerReach .unspec rfl) staleAgreed

def keeping : Utterance := ⟨"STOR f",obliging (.ok directory)⟩

theorem offsetKept : (restarts house).Reach (fun _ _ => True) stale ∧ stale.1.rest = 5 ∧ stale.2 = 0 ∧
    (restarts house).step stale (keeping.played house stale.1) (conversed house note stale keeping) ∧
    ∃ job, ⟨.dispatch job,true⟩ ∈ (keeping.played house stale.1).trace ∧ job.op = .stor ∧ job.rest = 5 ∧
      (storFlags job).trunc = false := by
  obtain ⟨kept,none_,open_,took⟩ : stale.1.rest = 5 ∧ stale.2 = 0 ∧
      (stale.1.connected = true ∧ stale.1.tlsHandshaking = false) ∧
      (keeping.played house stale.1).trace.any (tookJob fun job => job.op = .stor ∧ job.rest = 5) = true := by
    decide +kernel
  obtain ⟨job,member,is⟩ := tookSome took
  obtain ⟨stor,five⟩ := of_decide_eq_true is
  exact ⟨staleReached,kept,none_,saidStep open_,job,member,stor,five,by simp [storFlags,five]⟩

end OpenPs3Ftp.Restart
