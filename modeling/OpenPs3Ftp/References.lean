import OpenPs3Ftp.Reactor
import OpenPs3Ftp.Service.Schedule

/-! The life of a client object, over all interleavings of the reactor with the workers
and with threads that send lines. -/
namespace OpenPs3Ftp.Service
open Lib Text Session Commands Events Worker Reactor Program System

def Unnamed (st : State) (id : ClientId) : Prop :=
  listed st.core id = false ∧ own st.core id = [] ∧ naming id (lines st) = []

theorem totalZero {st held id} (none_ : total st held id = 0) : Unnamed st id := by
  simp only [total] at none_
  refine ⟨?_,List.eq_nil_of_length_eq_zero (by omega),List.eq_nil_of_length_eq_zero (by omega)⟩
  cases here : listed st.core id with
  | false => rfl
  | true => simp [here] at none_

theorem unnamedZero {st id} (idle : st.core.task = none) (unnamed : Unnamed st id) (held) : total st held id = 0 := by
  obtain ⟨out,free,quiet⟩ := unnamed
  simp [totalIdle idle,out,free,quiet]

section
variable {s : Server} {st : State} {held : Option JobId} {id : ClientId}

theorem Tally.alive (tally : Tally s st held) (named : 0 < total st held id) : st.freed id = 0 := by
  rw [(tally.lives id).2,if_neg]
  rintro ⟨-,none_⟩
  rw [tally.count] at none_
  omega

theorem Tally.gone (tally : Tally s st held) (freed : st.freed id ≠ 0) : Unnamed st id := by
  refine @totalZero st held id ?_
  by_contra named
  exact freed (tally.alive (Nat.pos_of_ne_zero named))

end

theorem referencesCounted (workers : Nat) (s : Server) (st : State) (reached : (service workers s).Reach Referenced st) :
    (st.core.task = none → ∀ id, st.refs id =
      ((if listed st.core id then 1 else 0) + (own st.core id).length + (naming id (lines st)).length : Nat)) ∧
    (∀ id, st.freed id ≤ 1 ∧ (st.freed id = 1 → Unnamed st id)) ∧
    (st.core.task = none → ∀ id < st.core.nextClient, Unnamed st id → st.freed id = 1) ∧
    (∀ f ∈ flights st.core, st.freed f.owner = 0) ∧ (∀ p ∈ lines st, st.freed p.owner = 0) ∧
    ∀ id p, st.core.task = some (id,p) → st.freed id = 0 := by
  obtain ⟨held,tally⟩ := tallyReached reached
  refine ⟨fun idle id => ?_,fun id => ⟨?_,fun freed => tally.gone (by simp [freed])⟩,fun idle id known unnamed => ?_,
    fun f member => tally.alive ?_,fun p member => tally.alive ?_,fun id p busy => ?_⟩
  · rw [tally.count,totalIdle idle]
    cases listed st.core id <;> rfl
  · rw [(tally.lives id).2]
    split <;> decide
  · have none_ : st.refs id = 0 := by
      rw [tally.count,unnamedZero idle unnamed]
      rfl
    rw [(tally.lives id).2,if_pos ⟨known,none_⟩]
  · have mine : 0 < (own st.core f.owner).length :=
      List.length_pos_of_mem (List.mem_filter.mpr ⟨member,decide_eq_true rfl⟩)
    simp only [total]
    omega
  · have mine : 0 < (naming p.owner (lines st)).length :=
      List.length_pos_of_mem (List.mem_filter.mpr ⟨member,decide_eq_true rfl⟩)
    simp only [total]
    omega
  · have positive := tally.engaged busy
    rw [tally.count] at positive
    exact tally.alive (by omega)

def blank : State := ⟨booted,.top,false,fun _ => 0,fun _ => 0,[],[],[]⟩

theorem blankStart : Start blank := ⟨bootedStart,rfl,rfl,rfl,fun _ => rfl,fun _ => rfl,rfl,rfl,rfl⟩

def plays (test : State → Move → Bool) (hints : List Hint) : List Move × State :=
  (chooser 2 house Containment.refusals offline).play test 200 blank hints

theorem playsReached (test hints) : (service 2 house).logged.Reached ((plays test hints).2,(plays test hints).1) := by
  have path : (service 2 house).Path blank (plays test hints).1 _ := Chooser.playPath 200 _ (evenStart blankStart)
  exact Path.reached (path.logged []) (.start ⟨blankStart,rfl⟩)

instance (st : State) (move : Move) : Decidable (Referenced st move) := by
  unfold Referenced
  split <;> infer_instance

theorem playsReferenced (hints) :
    (service 2 house).Reach Referenced (plays (fun st move => decide (Referenced st move)) hints).2 :=
  Chooser.playReach (fun _ _ => of_decide_eq_true) 200 _ (evenStart blankStart) (.start blankStart)

def arriving : List Hint := [.poll .ready,.core (.collect [.listener [caller]])]
def note : Pending := ⟨0,1,ascii "451 Late.\r\n"⟩

def noting : List Move × State :=
  plays (fun st move => decide (Referenced st move)) (arriving ++ [.stamp note,.retain])

theorem referencesCountedNote : ∃ st, (service 2 house).Reach Referenced st ∧ st.retained = [note] ∧
    st.refs 0 = 2 ∧ st.freed 0 = 0 := by
  have reached : (service 2 house).Reach Referenced noting.2 := playsReferenced _
  have facts : noting.2.retained = [note] ∧ noting.2.refs 0 = 2 := by decide +kernel
  generalize noting.2 = st at reached facts
  exact ⟨st,reached,facts.1,facts.2,(referencesCounted 2 house st reached).2.2.2.2.1 note (by simp [lines,facts.1])⟩

end OpenPs3Ftp.Service
