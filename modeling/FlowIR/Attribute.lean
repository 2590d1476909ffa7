/-!
# Attributes of program parts

The names are those under which tables list them.
-/
namespace FlowIR

inductive FloatKind where
  | half
  | float
  | double
  | x86Fp80
  | fp128
  | ppcFp128
  deriving DecidableEq, Repr

namespace FloatKind

def all : List FloatKind := [half, float, double, x86Fp80, fp128, ppcFp128]

def name : FloatKind → String
  | half => "Half"
  | float => "Float"
  | double => "Double"
  | x86Fp80 => "X86Fp80"
  | fp128 => "Fp128"
  | ppcFp128 => "PpcFp128"

def ofName? (name : String) : Option FloatKind := all.find? (·.name = name)

end FloatKind

inductive Linkage where
  | external
  | availableExternally
  | linkOnceAny
  | linkOnceOdr
  | weakAny
  | weakOdr
  | appending
  | internal
  | privateLinkage
  | externalWeak
  | common
  deriving DecidableEq, Repr

namespace Linkage

instance : Inhabited Linkage := ⟨external⟩

def all : List Linkage :=
  [external, availableExternally, linkOnceAny, linkOnceOdr, weakAny, weakOdr, appending, internal,
   privateLinkage, externalWeak, common]

def name : Linkage → String
  | external => "External"
  | availableExternally => "AvailableExternally"
  | linkOnceAny => "LinkOnceAny"
  | linkOnceOdr => "LinkOnceOdr"
  | weakAny => "WeakAny"
  | weakOdr => "WeakOdr"
  | appending => "Appending"
  | internal => "Internal"
  | privateLinkage => "Private"
  | externalWeak => "ExternalWeak"
  | common => "Common"

def ofName? (name : String) : Option Linkage := all.find? (·.name = name)

end Linkage

inductive Visibility where
  | standard
  | hidden
  | protectedVisibility
  deriving DecidableEq, Repr

namespace Visibility

instance : Inhabited Visibility := ⟨standard⟩

def all : List Visibility := [standard, hidden, protectedVisibility]

def name : Visibility → String
  | standard => "Default"
  | hidden => "Hidden"
  | protectedVisibility => "Protected"

def ofName? (name : String) : Option Visibility := all.find? (·.name = name)

end Visibility

inductive CallingConvention where
  | c
  | fast
  | cold
  | ghc
  | x86StdCall
  | x86FastCall
  | other (number : UInt32)
  deriving DecidableEq, Repr

namespace CallingConvention

instance : Inhabited CallingConvention := ⟨c⟩

/-- The conventions that are known by name. -/
def named : List CallingConvention := [c, fast, cold, ghc, x86StdCall, x86FastCall]

def name : CallingConvention → String
  | c => "C"
  | fast => "Fast"
  | cold => "Cold"
  | ghc => "Ghc"
  | x86StdCall => "X86StdCall"
  | x86FastCall => "X86FastCall"
  | other _ => "Other"

def ofName? (name : String) : Option CallingConvention := named.find? (·.name = name)

end CallingConvention

end FlowIR
