import OpenPs3Ftp.Turns
import OpenPs3Ftp.Containment

/-! Conversations: lines handed to a session one after the other, with the answers that
the calls of each of them get. -/
namespace OpenPs3Ftp.Events
open Lib Text Fs Session Program System

structure Utterance where
  text : String
  oracle : (call : Call) → Answer call

def obliging (found : Except Errno Stat) : (call : Call) → Answer call
  | .fs (.stat _) => found
  | .auth .. | .bind .. | .listen _ | .dispatch _ => true
  | .localAddr => .inet ⟨127,0,0,1⟩ 21
  | .socket _ => some 7
  | .newJob _ => some 0
  | call => Containment.refusals call

def Utterance.run (s : Server) (c : Client) (u : Utterance) : Trace × Client :=
  ((Turn.line (ascii u.text)).run s c).play u.oracle

def Utterance.played (s : Server) (c : Client) (u : Utterance) : Played := ⟨s.root,.line (ascii u.text),(u.run s c).1⟩
def words (found : Except Errno Stat) (texts : List String) : List Utterance := texts.map (⟨·,obliging found⟩)

theorem spokenStep {s c} {u : Utterance} (open_ : c.connected = true ∧ c.tlsHandshaking = false) :
    (connection s).step c (u.played s c) (u.run s c).2 := ⟨open_,playRuns u.oracle _⟩

section Watched
variable {Record : Type} (s : Server) (note : Record → Client → Played → Record)

def conversed (st : Client × Record) (u : Utterance) : Client × Record :=
  ((u.run s st.1).2,note st.2 st.1 (u.played s st.1))

def converse (st : Client × Record) (words : List Utterance) : Client × Record := words.foldl (conversed s note) st

def Agreed (ok : Client × Record → Played → Prop) : Client × Record → List Utterance → Prop
  | _,[] => True
  | st,u :: rest => (st.1.connected = true ∧ st.1.tlsHandshaking = false) ∧ ok st (u.played s st.1) ∧
      Agreed ok (conversed s note st u) rest

instance decidableAgreed {ok : Client × Record → Played → Prop} [decide_ : ∀ st p, Decidable (ok st p)]
    (st : Client × Record) (words : List Utterance) : Decidable (Agreed s note ok st words) :=
  match words with
  | [] => isTrue trivial
  | u :: rest => @instDecidableAnd _ _ inferInstance
      (@instDecidableAnd _ _ (decide_ st (u.played s st.1)) (decidableAgreed (conversed s note st u) rest))

variable {s note} {init : Record} {ok : Client × Record → Played → Prop}

theorem saidStep {st u} (open_ : st.1.connected = true ∧ st.1.tlsHandshaking = false) :
    ((connection s).watched init note).step st (u.played s st.1) (conversed s note st u) :=
  ⟨spokenStep open_,rfl⟩

theorem converseReach {st words} (here : ((connection s).watched init note).Reach ok st)
    (agreed : Agreed s note ok st words) :
    ((connection s).watched init note).Reach ok (converse s note st words) := by
  induction words generalizing st with
  | nil => exact here
  | cons u rest ih => exact ih (.step here agreed.2.1 (saidStep agreed.1)) agreed.2.2

theorem newcomerReach (peer) (free : s.requireTls = false) :
    ((connection s).watched init note).Reach ok (clientNew peer,init) := by
  have greeted : ∃ greeting, (acceptClient s peer).Runs greeting (clientNew peer) := by
    simp only [acceptClient,free,Bool.false_eq_true,if_false]
    cases s.skipBanner with
    | true => exact ⟨[],.done _⟩
    | false => exact ⟨_,invokeRuns (.send .command _) () (.done _)⟩
  obtain ⟨greeting,run⟩ := greeted
  exact .start ⟨⟨peer,greeting,run⟩,rfl⟩

end Watched
end OpenPs3Ftp.Events
