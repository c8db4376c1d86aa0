import OpenPs3Ftp.Loop
import OpenPs3Ftp.Reactor.Machine

/-! The pollset, the list of clients and the copy the loop goes through. A step either
leaves the map of the pollset and the list as they are, or adds a client to both, or
takes one away from both; the copy only gets shorter. -/
namespace OpenPs3Ftp.Polling
open Lib Text Fs Session Commands Program Events Pollset Loop

/- The clients of the copy that are still to be handled, with the one that is. -/
def pending : Phase → List Ptr
  | .serving left | .accepting left => left.filterMap (·.1)
  | .handling ptr left => ptr :: left.filterMap (·.1)
  | .top | .polled | .dropping | .ended => []

def identity (e : Entry) : Ptr × Fd × Nat := (e.ptr,e.fd,e.handle)

inductive Moves (st : State) : Act → State → Prop where
  | kept {act st'} (plain : ∀ ptr fd peer, act ≠ .accept ptr fd peer) (stays : ∀ ptr, act ≠ .disconnect ptr ∧ act ≠ .drop ptr)
      (slots : table st'.pollset = table st.pollset) (clients : st'.clients.map identity = st.clients.map identity)
      (fewer : (pending st'.phase).Sublist (pending st.phase)) : Moves st act st'
  | copied : Moves st .collect { st with phase := .serving (Pollset.collect st.pollset copyMax) }
  | added {ptr fd peer events c} (fresh : ptr ∉ st.clients.map Entry.ptr) :
      Moves st (.accept ptr fd peer)
        { st with pollset := (add st.pollset fd events (some ptr)).2
                  clients := ⟨ptr,fd,(add st.pollset fd events (some ptr)).1,c⟩ :: st.clients }
  | erased {act e phase} (here : e ∈ st.clients) (named : act = .disconnect e.ptr ∨ act = .drop e.ptr)
      (fewer : (pending phase).Sublist (pending st.phase)) (apart : (pending st.phase).Nodup → e.ptr ∉ pending phase) :
      Moves st act (removed st e phase)

theorem revisedIdentity (clients ptr client) : (revised clients ptr client).map identity = clients.map identity := by
  rw [revised,List.map_map]
  refine List.map_congr_left fun e _ => ?_
  simp only [Function.comp]
  split <;> rfl

variable {s : Server} {st st' : State} {act : Act}

theorem stepMoves (step : Step s st act st') : Moves st act st' := by
  cases step with
  | wait report at_ => exact .kept (by simp) (by simp) (waitTable _ _) rfl (by simp [pending])
  | failed at_ | stopped at_ | served at_ | leave at_ | close at_ none_ =>
    exact .kept (by simp) (by simp) rfl rfl (by simp [pending])
  | complete at_ here kind step | turn at_ here kind step | request here =>
    exact .kept (by simp) (by simp) rfl (revisedIdentity _ _ _) (.refl _)
  | collect at_ => exact .copied
  | skip at_ quiet | listen at_ asked | accepted at_ | event at_ | settle at_ here calm =>
    exact .kept (by simp) (by simp) rfl rfl (by simp [pending,at_])
  | accept at_ fresh run => exact .added fresh
  | mod events at_ here => exact .kept (by simp) (by simp) (modTable _ _ _) rfl (.refl _)
  | disconnect at_ here asked =>
    refine .erased here (.inl rfl) (by simp [pending,at_]) ?_
    rw [at_]
    exact fun once => (List.nodup_cons.mp once).1
  | drop at_ first => exact .erased (first ▸ List.mem_cons_self) (.inr rfl) (by simp [pending]) (by simp [pending])

structure Good (st : State) : Prop where
  owned : ∀ e ∈ st.clients, view st.pollset e.handle = some (e.fd,some e.ptr)
  users : (users st.pollset).Perm (st.clients.map Entry.ptr)
  once : (st.clients.map Entry.ptr).Nodup
  copied : (pending st.phase).Nodup
  listed : ∀ ptr ∈ pending st.phase, ptr ∈ st.clients.map Entry.ptr

theorem goodStart (first : Start st) : Good st := by
  obtain ⟨wakeR,listenFd,rfl⟩ := first
  exact ⟨by simp,.refl _,.nil,.nil,by simp [pending]⟩

variable {clients : List Entry}

theorem samePtrs {clients' : List Entry} (same : clients'.map identity = clients.map identity) :
    clients'.map Entry.ptr = clients.map Entry.ptr := by
  simpa [Function.comp_def,identity] using congrArg (List.map Prod.fst) same

variable {e : Entry}

theorem sameMember {clients' : List Entry} (same : clients'.map identity = clients.map identity)
    (here : e ∈ clients') : ∃ old ∈ clients, identity old = identity e :=
  List.mem_map.mp (same ▸ List.mem_map_of_mem here)

theorem Good.kept {st st' : State} (good : Good st) (slots : table st'.pollset = table st.pollset)
    (clients : st'.clients.map identity = st.clients.map identity)
    (fewer : (pending st'.phase).Sublist (pending st.phase)) : Good st' := by
  refine ⟨fun e here => ?_,?_,?_,fewer.nodup good.copied,fun ptr member => ?_⟩
  · obtain ⟨old,there,same⟩ := sameMember clients here
    obtain ⟨ptr,fd,handle⟩ : old.ptr = e.ptr ∧ old.fd = e.fd ∧ old.handle = e.handle := by
      simpa [identity] using same
    rw [viewSame slots,← ptr,← fd,← handle]
    exact good.owned old there
  · rw [usersSame slots,samePtrs clients]
    exact good.users
  · rw [samePtrs clients]
    exact good.once
  · rw [samePtrs clients]
    exact good.listed ptr (fewer.subset member)

theorem Good.added (good : Good st) {ptr} (fresh : ptr ∉ st.clients.map Entry.ptr) (fd events c) :
    Good { st with pollset := (add st.pollset fd events (some ptr)).2
                   clients := ⟨ptr,fd,(add st.pollset fd events (some ptr)).1,c⟩ :: st.clients } := by
  obtain ⟨-,free,now⟩ := viewAdd st.pollset fd events (some ptr)
  refine ⟨fun e here => ?_,?_,List.nodup_cons.mpr ⟨fresh,good.once⟩,good.copied,fun other member => ?_⟩
  · rw [now]
    rcases List.mem_cons.mp here with rfl | here
    · exact Function.update_self ..
    have taken := good.owned e here
    rw [Function.update_of_ne]
    · exact taken
    · rintro same
      rw [same,free] at taken
      cases taken
  · exact (usersAdd st.pollset fd events ptr).trans (good.users.cons ptr)
  · exact List.mem_cons_of_mem _ (good.listed other member)

theorem erasedPerm (here : e ∈ clients) :
    (clients.map Entry.ptr).Perm (e.ptr :: (clients.eraseP (·.ptr = e.ptr)).map Entry.ptr) := by
  obtain ⟨first,before,later,-,same,rfl,rest⟩ :=
    @List.exists_of_eraseP _ (fun other : Entry => decide (other.ptr = e.ptr)) clients e here (by simp)
  rw [rest]
  have found : first.ptr = e.ptr := by simpa using same
  simp [found]

theorem Good.erased (good : Good st) {phase} (here : e ∈ st.clients)
    (fewer : (pending phase).Sublist (pending st.phase)) (apart : e.ptr ∉ pending phase) :
    Good (removed st e phase) := by
  have mine := good.owned e here
  have less := erasedPerm here
  refine ⟨fun other member => ?_,?_,?_,fewer.nodup good.copied,fun ptr member => ?_⟩
  · have taken := good.owned other (List.eraseP_subset member)
    show view (remove st.pollset e.handle) other.handle = _
    rw [viewRemove,Function.update_of_ne]
    · exact taken
    intro same
    rw [same,mine] at taken
    have equal : e.ptr = other.ptr := by simpa using congrArg (Option.map Prod.snd) taken
    exact erasedApart good.once e.ptr other member equal.symm
  · exact ((usersRemove mine).symm.trans (good.users.trans less)).cons_inv
  · exact (List.nodup_cons.mp (less.nodup_iff.mp good.once)).2
  · rcases List.mem_cons.mp (less.subset (good.listed ptr (fewer.subset member))) with rfl | there
    · exact absurd member apart
    · exact there

theorem goodStep (good : Good st) (step : Step s st act st') : Good st' := by
  cases stepMoves step with
  | kept plain stays slots clients fewer => exact good.kept slots clients fewer
  | copied =>
    -- the copy is of live slots, and every listed client has one
    have part := collectUsers st.pollset copyMax
    have once : (Pollset.users st.pollset).Nodup := good.users.nodup_iff.mpr good.once
    exact ⟨good.owned,good.users,good.once,part.nodup once,fun ptr member => good.users.subset (part.subset member)⟩
  | added fresh => exact good.added fresh _ _ _
  | erased here named fewer apart => exact good.erased here fewer (apart good.copied)

theorem goodReach {ok} (reached : (loop s).Reach ok st) : Good st := by
  induction reached with
  | start first => exact goodStart first
  | step _ _ moved good => exact goodStep good moved

theorem copyCollected {ok workers name ready} (reached : (loop s).Reach ok st)
    (apart : ∀ e ∈ st.clients, ∀ other ∈ st.clients, name e.ptr = name other.ptr → e.ptr = other.ptr)
    (known : ∀ e ∈ st.clients, ∃ c, workers.clients (name e.ptr) = some c ∧ c.connected = true)
    (copy : ready.filterMap Reactor.Ready.id? = (pending st.phase).map name) : Reactor.Collected workers ready := by
  have good := goodReach reached
  unfold Reactor.Collected
  rw [copy]
  refine ⟨List.Nodup.map_on ?_ good.copied,fun id member => ?_⟩
  · intro ptr member other member' same
    obtain ⟨e,here,rfl⟩ := List.mem_map.mp (good.listed ptr member)
    obtain ⟨e',here',rfl⟩ := List.mem_map.mp (good.listed other member')
    exact apart e here e' here' same
  · obtain ⟨ptr,within,rfl⟩ := List.mem_map.mp member
    obtain ⟨e,here,rfl⟩ := List.mem_map.mp (good.listed ptr within)
    exact known e here

theorem partedReach : (loop house).Reach (fun _ _ => True) parted :=
  (askedPath.append partedPath).reach (fun _ _ _ => trivial) (.step (gatheredReach 3 fun _ _ _ => trivial) trivial (.wait _ rfl))

theorem copyCollectedParted : parted.clients.map Entry.ptr = [2,0] ∧
    Reactor.Collected ⟨fun id => if id = 1 then none else some visitor,9,0,[],[],[],.waiting,none⟩
      [.client 2 ⟨false,true,false⟩] := by
  have left : parted.clients.map Entry.ptr = [2,0] := by decide +kernel
  have named : ∀ e ∈ parted.clients, e.ptr ≠ 1 := fun e here same => by
    have member := left ▸ List.mem_map_of_mem here
    simp [same] at member
  exact ⟨left,@copyCollected _ _ _ _ id _ partedReach (fun _ _ _ _ same => same)
    (fun e here => ⟨visitor,if_neg (named e here),rfl⟩) rfl⟩

def Changes (st : State) (act : Act) (st' : State) : Prop :=
  match act with
  | .accept ptr fd _ => ∃ e ∈ st'.clients, e.ptr = ptr ∧ e.fd = fd ∧ e.handle ≠ 0 ∧ view st.pollset e.handle = none ∧
      view st'.pollset = Function.update (view st.pollset) e.handle (some (fd,some ptr))
  | .disconnect ptr | .drop ptr => ∃ e ∈ st.clients, e.ptr = ptr ∧
      view st'.pollset = Function.update (view st.pollset) e.handle none
  | _ => view st'.pollset = view st.pollset

theorem movesChanges (moves : Moves st act st') : Changes st act st' := by
  cases moves with
  | kept plain stays slots clients fewer =>
    have same := viewSame slots
    cases act with
    | accept ptr fd peer => exact absurd rfl (plain ptr fd peer)
    | disconnect ptr => exact absurd rfl (stays ptr).1
    | drop ptr => exact absurd rfl (stays ptr).2
    | _ => exact same
  | copied => rfl
  | added fresh => exact ⟨_,List.mem_cons_self,rfl,rfl,viewAdd _ _ _ _⟩
  | erased here named fewer apart =>
    rcases named with rfl | rfl
    · exact ⟨_,here,rfl,viewRemove _ _⟩
    · exact ⟨_,here,rfl,viewRemove _ _⟩

theorem viewBound (p) {handle} (beyond : p.entries.length < handle) : view p handle = none := by
  cases handle with
  | zero => rfl
  | succ index =>
    have out : (table p)[index]? = none := by
      rw [List.getElem?_eq_none_iff,table,List.length_map]
      exact Nat.lt_succ_iff.mp beyond
    rw [view,Slots.look,out]
    rfl

/- The clients of the list are the users of the map, each under a handle of its own. -/
structure Refines (st : State) : Prop where
  finite : ∃ bound, ∀ handle, bound < handle → view st.pollset handle = none
  owns : ∀ e ∈ st.clients, e.handle ≠ 0 ∧ view st.pollset e.handle = some (e.fd,some e.ptr)
  alone : ∀ e ∈ st.clients, ∀ handle fd, view st.pollset handle = some (fd,some e.ptr) → handle = e.handle
  unshared : st.clients.Pairwise fun e other => e.ptr ≠ other.ptr ∧ e.handle ≠ other.handle
  nobody : ∀ handle fd ptr, view st.pollset handle = some (fd,some ptr) → ∃ e ∈ st.clients, e.ptr = ptr

theorem Good.refines (good : Good st) : Refines st where
  finite := ⟨_,fun _ => viewBound st.pollset⟩
  owns e here := by
    have mine := good.owned e here
    refine ⟨fun zero => ?_,mine⟩
    rw [zero] at mine
    cases mine
  alone e here handle fd found := viewOnce (good.users.nodup_iff.mpr good.once) found (good.owned e here)
  unshared := by
    refine (List.pairwise_map.mp good.once).imp_of_mem fun {e other} here there apart => ⟨apart,fun same => ?_⟩
    have mine := good.owned e here
    rw [same,good.owned other there] at mine
    exact apart (by simpa using (congrArg (Option.map Prod.snd) mine).symm)
  nobody handle fd ptr found := List.mem_map.mp (good.users.subset (viewMember found))

/- The pollset is a map in which entries are made and removed with the clients, and an
event is always for a client of the list. -/
theorem pollsetRefines {s : Server} {st : State} (reached : (loop s).Reach (fun _ _ => True) st) :
    Refines st ∧ ∀ act st', (loop s).step st act st' →
      Changes st act st' ∧ ∀ ptr mask, act = .event ptr mask → ∃ e ∈ st.clients, e.ptr = ptr := by
  have good := goodReach reached
  refine ⟨good.refines,fun act st' step => ⟨movesChanges (stepMoves step),?_⟩⟩
  rintro ptr mask rfl
  cases step with
  | event at_ => exact List.mem_map.mp (good.listed ptr (by simp [pending,at_]))

theorem pollsetRefinesParted : parted.clients.map Entry.ptr = [2,0] ∧ view parted.pollset leaver.handle = none ∧
    Refines parted ∧ ∀ act st', (loop house).step parted act st' →
      Changes parted act st' ∧ ∀ ptr mask, act = .event ptr mask → ∃ e ∈ parted.clients, e.ptr = ptr :=
  ⟨by decide +kernel,by decide +kernel,pollsetRefines partedReach⟩

end OpenPs3Ftp.Polling
