import Kfs.Mem

/-!
# Recovered and fatal panics

`koops!` reports on the screen and returns, `kpanic!` does not return.  `Oops` is one constructor
for each report of the modelled functions, and `Oops.message` is its text.
-/

namespace Kfs

/-- `{:#010x}`. -/
def hex (x : U32) : String :=
  let digits := Nat.toDigits 16 x.toNat
  "0x" ++ String.ofList (List.replicate (8 - digits.length) '0' ++ digits)

/-- A recovered panic of the modelled functions. -/
inductive Oops where
  | outOfBlock (name : String)
  | noFrame (name : String)
  | endOfRange (name : String)
  | topInUse (name : String)
  | topTooSmall (name : String)
  | tooLarge (want : U32) (name : String)
  | notFrom (payload : U32) (name : String)
  | freedTwice (payload : U32) (name : String)
  | kernelSpace (addr : U32)
  | noTableFrame (addr : U32)
  | mappedAlready (addr : U32)
  deriving DecidableEq, Repr

def Oops.message : Oops → String
  | outOfBlock name => name ++ " ran out of its physical block"
  | noFrame name => name ++ " found no free physical frame"
  | endOfRange name => name ++ " reached the end of its address range"
  | topInUse name => "the top of " ++ name ++ " is in use, it cannot shrink"
  | topTooSmall name => "the free top of " ++ name ++ " is too small to give back"
  | tooLarge want name => toString want.toNat ++ " bytes is more than " ++ name ++ " can ever hold"
  | notFrom payload name => hex payload ++ " did not come from " ++ name
  | freedTwice payload name => hex payload ++ " is freed twice in " ++ name
  | kernelSpace addr => hex addr ++ " is kernel space, it takes no user page"
  | noTableFrame addr => "no free frame for the page table of " ++ hex addr
  | mappedAlready addr => hex addr ++ " is mapped already"

/-- Why the kernel does not go on: a page fault that nothing handles, a fatal panic with its
text, or a loop that never ends. -/
inductive Stop where
  | fault (addr : U32)
  | panic (why : String)
  | spins
  deriving DecidableEq, Repr

end Kfs
