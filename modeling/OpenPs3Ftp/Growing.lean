import OpenPs3Ftp.Pollset

/-! A pollset that grows: its two arrays are reallocated one after the other, and either may fail. -/
namespace OpenPs3Ftp.Growing
open Fs Pollset

/- A pollset, and whether the blocks that `fds` and `users` point to are still allocated. -/
structure Held where
  set : Pollset
  fds : Bool
  users : Bool

def whole (p : Pollset) : Held := ⟨p,true,true⟩

/- `ensure_cap`: a `realloc` that succeeds frees the old block, and the new ones are freed unless both are there. -/
def Held.ensureCap (h : Held) (nf nu : Bool) : Bool × Held :=
  if nf ∧ nu then (true,h) else (false,{ h with fds := h.fds && !nf, users := h.users && !nu })

def Full (p : Pollset) : Prop := (∀ slot ∈ p.entries, slot.fd ≠ none) ∧ p.cap < p.entries.length + 2

instance (p : Pollset) : Decidable (Full p) := inferInstanceAs (Decidable (_ ∧ _))

/- `opftp_pollset_add`; undefined in a pollset with a freed block. -/
def Held.add (h : Held) (nf nu : Bool) (fd : Fd) (events : Mask) (user : Option Ptr) : Option (Option Nat × Held) :=
  if h.fds ∧ h.users then
    let (grown,h') := if Full h.set then h.ensureCap nf nu else (true,h)
    let (handle,set) := Pollset.add h.set fd events user
    some (if grown then (some handle,{ h' with set }) else (none,h'))
  else none

/- After an add that failed everything is as it was, and an add can succeed. -/
def Survives (p : Pollset) (nf nu : Bool) (fd : Fd) (events : Mask) (user : Option Ptr) : Prop :=
  ∀ h, (whole p).add nf nu fd events user = some (none,h) →
    h = whole p ∧ ∃ handle after, h.add true true fd events user = some (some handle,after)

theorem addSurvives (p nf nu fd events user) : Survives p nf nu fd events user ↔ (Full p → nf = nu) := by
  by_cases full : Full p
  · cases nf <;> cases nu <;> simp [Survives,Held.add,whole,Held.ensureCap,full]
  · simp [Survives,Held.add,whole,full]

/- Seven descriptors beside the wake pipe, and only the first array could be grown. -/
theorem arrayDangles : ¬ Survives ⟨8,⟨some 3,pollin,0,none⟩,List.replicate 7 ⟨some 4,pollin,0,none⟩,by decide⟩ true false 5
    pollin none := by
  intro survives
  have same := congrArg Held.fds (survives _ rfl).1
  cases same

end OpenPs3Ftp.Growing
