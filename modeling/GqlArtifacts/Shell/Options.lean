/-!
# Options of tools

Tools take options of one letter, which may be put together, and long ones, which may be shortened
as long as it is clear which is meant. Options may stand after other arguments; two hyphens end
them.
-/

namespace GqlArtifacts.Shell

/-- An option of a tool. Where there is no letter, only the long name can be written. -/
structure ToolOption where
  key : Char
  long : String
  takesValue : Bool

structure ToolArgs where
  /-- The options in order, each with its value or an empty text. -/
  options : List (Char × String)
  operands : List String
deriving Inhabited

namespace ToolArgs

def has (a : ToolArgs) (key : Char) : Bool := a.options.any (·.1 == key)

/-- The values of an option in order. -/
def values (a : ToolArgs) (key : Char) : List String :=
  (a.options.filter (·.1 == key)).map Prod.snd

/-- Reads a group of letters; the last option may take the next argument for its value. -/
def readLetters (known : List ToolOption) : List Char → (next? : Option String) →
    Except String (List (Char × String) × Bool)
  | [], _ => .ok ([], false)
  | c :: rest, next? =>
    match known.find? (·.key == c) with
    | none => .error s!"invalid option -- '{c}'"
    | some o =>
      if !o.takesValue then do
        let (more, taken) ← readLetters known rest next?
        return ((c, "") :: more, taken)
      else if !rest.isEmpty then .ok ([(c, String.ofList rest)], false)
      else
        match next? with
        | some value => .ok ([(c, value)], true)
        | none => .error s!"option requires an argument -- '{c}'"

/-- Reads a long option after its hyphens. -/
def readLong (known : List ToolOption) (text : String) (next? : Option String) :
    Except String ((Char × String) × Bool) :=
  let name := String.ofList (text.toList.takeWhile (· != '='))
  let value? : Option String :=
    match text.toList.dropWhile (· != '=') with
    | _ :: value => some (String.ofList value)
    | [] => none
  let meant : List ToolOption :=
    match known.filter (·.long == name) with
    | [] => known.filter fun o => name.toList.isPrefixOf o.long.toList
    | exact => exact
  match meant with
  | [o] =>
    match o.takesValue, value?, next? with
    | false, none, _ => .ok ((o.key, ""), false)
    | false, some _, _ => .error s!"option '--{o.long}' doesn't allow an argument"
    | true, some value, _ => .ok ((o.key, value), false)
    | true, none, some value => .ok ((o.key, value), true)
    | true, none, none => .error s!"option '--{o.long}' requires an argument"
  | [] => .error s!"unrecognized option '--{name}'"
  | _ =>
    let possible := " ".intercalate (meant.map fun o => s!"'--{o.long}'")
    .error s!"option '--{name}' is ambiguous; possibilities: {possible}"

def readFrom (known : List ToolOption) : (fuel : Nat) → List String → Except String ToolArgs
  | 0, _ => .ok ⟨[], []⟩
  | _, [] => .ok ⟨[], []⟩
  | fuel + 1, arg :: rest => do
    match arg.toList with
    | ['-', '-'] => return ⟨[], rest⟩
    | '-' :: '-' :: long =>
      let (option, taken) ← readLong known (String.ofList long) rest.head?
      let more ← readFrom known fuel (if taken then rest.tail else rest)
      return { more with options := option :: more.options }
    | '-' :: c :: letters =>
      let (options, taken) ← readLetters known (c :: letters) rest.head?
      let more ← readFrom known fuel (if taken then rest.tail else rest)
      return { more with options := options ++ more.options }
    | _ =>
      let more ← readFrom known fuel rest
      return { more with operands := arg :: more.operands }

/-- Reads the arguments of a tool. -/
def read (known : List ToolOption) (args : List String) : Except String ToolArgs :=
  readFrom known (args.length + 1) args

end ToolArgs

end GqlArtifacts.Shell
