import OpenPs3Ftp.Text

/-! What the connect hook holds (`ftpserver.c`): the blocks that it, the client map, the poll array and
`base_connect` allocate, the slot it takes, and what it gives back when it refuses a connection. -/
namespace OpenPs3Ftp.Legacy.Connect
open Text

/- A variable tree (`pftutils.c`). -/
inductive PTNode where
  | null
  | node (key : UInt8) (data : Option Nat) (right down : PTNode)

def PTNode.isNull : PTNode → Bool
  | .null => true
  | .node .. => false

/- Nothing is what reading through a null pointer comes to. -/
def ptnodeDestroy : PTNode → Option Unit
  | .null => none
  | .node _ _ right down =>
    if (right.isNull ∨ ptnodeDestroy right = some ()) ∧ (down.isNull ∨ ptnodeDestroy down = some ()) then some () else none

/- The nodes for the rest of a key, and its end. -/
def chain (data : Nat) : Bytes → PTNode
  | [] => .node 0 (some data) .null .null
  | b :: key => .node b none .null (chain data key)

/- `ptnode_insert`; a node that is missing is made, with all that hang below it. -/
def ptnodeInsert (data : Nat) : PTNode → Bytes → PTNode
  | .null,key => chain data key
  | .node b old right down,key =>
    if b = 0 then .node b (some data) right down
    else if key.head? = some b then .node b old right (ptnodeInsert data down key.tail)
    else .node b old (ptnodeInsert data right key) down

def PTNode.nodes : PTNode → Nat
  | .null => 0
  | .node _ _ right down => right.nodes + down.nodes + 1

/- The variables that `base_connect` makes. -/
inductive Var where | cwd | user | rnfr | auth | fd | rest
  deriving DecidableEq

def baseTree : PTNode :=
  ["cwd","user","rnfr","auth","fd","rest"].foldl (fun tree name => ptnodeInsert 1 tree (ascii name)) .null

/- An allocation: those of the hook, the node of the client map, the poll array, the variables
and the nodes of their tree. -/
inductive Piece where
  | client | cvar | control | data | command | mutex | entry | pollfds
  | var (name : Var)
  | node (i : Fin baseTree.nodes)
  deriving DecidableEq

def shimMaxClients : Nat := 64

/- The slots of the shim, the blocks that are not freed and the client map, by connection. -/
structure Hall where
  slots : List (Option Nat)
  live : List (Nat × Piece)
  clients : List Nat
  deriving DecidableEq

/- `mapped` is whether the client map has the connection, `stored` whether every variable has
memory of its own. -/
structure Link where
  userdata : Bool
  mapped : Bool
  called : Bool
  stored : Bool
  welcomed : Bool
  closed : Bool
  deriving DecidableEq

def untouched : Link := ⟨false,false,false,false,false,false⟩
def complete : Link := ⟨true,true,true,true,true,false⟩
def fields : List Piece := [.cvar,.control,.data,.command,.mutex]

/- Those that are written through as soon as they are made. -/
def written : List Piece :=
  [.pollfds,.var .cwd,.var .auth,.var .fd,.var .rest] ++ (List.finRange baseTree.nodes).map .node

/- `shim_client_register`: the first slot that is free. -/
def shimClientRegister (conn : Nat) : List (Option Nat) → Option (List (Option Nat))
  | [] => none
  | none :: rest => some (some conn :: rest)
  | some owner :: rest => (shimClientRegister conn rest).map (some owner :: ·)

def hold (h : Hall) (conn : Nat) (pieces : List Piece) : Hall := { h with live := pieces.map (conn,·) ++ h.live }

def free (h : Hall) (conn : Nat) (pieces : List Piece) : Hall :=
  { h with live := (pieces.map (conn,·)).foldl List.erase h.live }

/- From `server_client_add` to the welcome. A client that the map has no node for is left out of it. -/
def setUp (alloc : Piece → Bool) (h : Hall) (conn : Nat) : Option (Hall × Link) :=
  if written.all alloc then
    some ({ hold h conn ((.entry :: .var .user :: .var .rnfr :: written).filter alloc) with
        clients := if alloc .entry then conn :: h.clients else h.clients },
      ⟨true,alloc .entry,true,alloc (.var .user) && alloc (.var .rnfr),true,false⟩)
  else none

/- `shim_on_connect`, for the allocations that succeed. -/
def shimOnConnect (alloc : Piece → Bool) (h : Hall) (conn : Nat) : Option (Hall × Link) := do
  if ¬ alloc .client then return (h,untouched)
  let held := hold h conn (.client :: fields.filter alloc)
  let refused := (free held conn (.client :: fields.filter alloc),untouched)
  if ¬ fields.all alloc then
    if alloc .cvar then ptnodeDestroy .null
    return refused
  match shimClientRegister conn held.slots with
  | none =>
    ptnodeDestroy .null
    return refused
  | some slots => setUp alloc { held with slots } conn

structure Same (h h' : Hall) (conn : Nat) : Prop where
  slots : ∀ other ≠ conn, some other ∈ h'.slots ↔ some other ∈ h.slots
  live : ∀ e ∈ h.live, e.1 ≠ conn → e ∈ h'.live
  clients : ∀ other ≠ conn, other ∈ h'.clients ↔ other ∈ h.clients

/- Set up in full or refused, closed and released, and nothing else touched. -/
def Admitted (h : Hall) (conn : Nat) (result : Option (Hall × Link)) : Prop :=
  ∃ h' link, result = some (h',link) ∧ Same h h' conn ∧
    ((some conn ∈ h'.slots ∧ conn ∈ h'.clients ∧ link = complete) ∨ (link.closed = true ∧ h' = h))

theorem destroyDefined (tree) : ptnodeDestroy tree = some () ↔ tree ≠ .null := by
  induction tree with
  | null => exact ⟨by rintro ⟨⟩,fun apart => absurd rfl apart⟩
  | node key data right down rightIh downIh =>
    have part : ∀ t : PTNode, (ptnodeDestroy t = some () ↔ t ≠ .null) → t.isNull = true ∨ ptnodeDestroy t = some () := by
      rintro (_ | _) defined
      · exact .inl rfl
      · exact .inr (defined.mpr (by rintro ⟨⟩))
    exact ⟨by rintro _ ⟨⟩,fun _ => if_pos ⟨part right rightIh,part down downIh⟩⟩

theorem registered {conn slots slots'} (took : shimClientRegister conn slots = some slots') :
    some conn ∈ slots' ∧ none ∈ slots ∧ ∀ other ≠ conn, some other ∈ slots' ↔ some other ∈ slots := by
  induction slots generalizing slots' with
  | nil => cases took
  | cons slot rest ih =>
    cases slot with
    | none =>
      cases took
      exact ⟨List.mem_cons_self,List.mem_cons_self,fun other apart => by simp [apart]⟩
    | some owner =>
      obtain ⟨rest',inner,rfl⟩ := Option.map_eq_some_iff.mp took
      obtain ⟨mine,free,others⟩ := ih inner
      exact ⟨.tail _ mine,.tail _ free,fun other apart => by simp [others other apart]⟩

theorem registers {conn slots} (free : none ∈ slots) : ∃ slots', shimClientRegister conn slots = some slots' := by
  induction slots with
  | nil => cases free
  | cons slot rest ih =>
    cases slot with
    | none => exact ⟨_,rfl⟩
    | some owner =>
      obtain ⟨rest',inner⟩ := ih ((List.mem_cons.mp free).resolve_left (by rintro ⟨⟩))
      exact ⟨some owner :: rest',by rw [shimClientRegister,inner]; rfl⟩

theorem refusedNot {h conn h'} : ¬ Admitted h conn (some (h',untouched)) := by
  rintro ⟨_,_,same,-,⟨-,-,link⟩ | ⟨closed,-⟩⟩ <;> cases same
  · cases link
  · cases closed

theorem undefinedNot {h conn} : ¬ Admitted h conn none := by
  rintro ⟨_,_,⟨⟩,-⟩

theorem setUpComplete {alloc h conn h' link} (made : setUp alloc h conn = some (h',link)) :
    link.closed = false ∧ (link = complete → written.all alloc = true ∧ alloc .entry = true ∧
      alloc (.var .user) = true ∧ alloc (.var .rnfr) = true) := by
  unfold setUp at made
  split at made
  · rename_i all
    cases made
    exact ⟨rfl,fun full => by simpa [complete,all] using full⟩
  · cases made

theorem everyPiece {alloc : Piece → Bool} (client : alloc .client = true) (hook : fields.all alloc = true)
    (rest : written.all alloc = true ∧ alloc .entry = true ∧ alloc (.var .user) = true ∧ alloc (.var .rnfr) = true) (piece) :
    alloc piece = true := by
  rw [List.all_eq_true] at hook
  obtain ⟨early,entry,user,rnfr⟩ := rest
  rw [List.all_eq_true] at early
  cases piece with
  | client => exact client
  | entry => exact entry
  | cvar | control | data | command | mutex => exact hook _ (by decide)
  | pollfds => exact early _ (by simp [written])
  | var name => cases name <;> first | assumption | exact early _ (by simp [written])
  | node i => exact early _ (by simp [written])

end OpenPs3Ftp.Legacy.Connect
