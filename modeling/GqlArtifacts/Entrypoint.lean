import GqlArtifacts.Files.Atomic
import GqlArtifacts.Manifest
import GqlArtifacts.Path.Relative

/-!
# The entrypoint of types

The entrypoint is a declaration file with one overload of `gql` or `load` for each call that the
manifest knows, so that an editor finds the type of a call by its argument. `overloads` lists what
there is to declare and `render` writes it: a header, then an import and a declaration for each
overload, numbered from zero.
-/

namespace GqlArtifacts.Entrypoint

/-- The argument that an overload answers to. -/
inductive Argument where
  | gql (text : String)
  | load (path : String)
deriving DecidableEq

/-- An overload and the module that its type comes from. -/
structure Overload where
  argument : Argument
  module : String
deriving DecidableEq

/-- The argument of a row's call; the text of a literal comes before a path. -/
def argument? (row : Row) : Option Argument :=
  match row.gql?, row.fragment? with
  | some text, _ => some (.gql text)
  | none, some path => some (.load path)
  | none, none => none

def declarationSuffix : List Char := ".d.ts".toList

/-- A declaration file seen from a directory, the way a module is named. -/
def moduleName (dir dts : Path) : String :=
  let cs := (Path.relative dir dts).toSlash.toList
  let cs :=
    if declarationSuffix.isSuffixOf cs then cs.take (cs.length - declarationSuffix.length) else cs
  let cs := if ['.', '.', '/'].isPrefixOf cs then cs else '.' :: '/' :: cs
  String.ofList cs

def overload? (dir : Path) (row : Row) : Option Overload :=
  (argument? row).map fun a => ⟨a, moduleName dir row.dts⟩

/-- The overloads of all rows in path and hash order, for an entrypoint at a path. -/
def overloads (m : Manifest) (entrypoint : Path) : List Overload :=
  m.toList.filterMap fun (_, _, row) => overload? (entrypoint.parent?.getD ⟨""⟩) row

/-- A text inside a template literal. -/
def escapeTemplate : List Char → List Char
  | '$' :: '{' :: cs => '\\' :: '$' :: '{' :: escapeTemplate cs
  | c :: cs => if c = '\\' ∨ c = '`' then '\\' :: c :: escapeTemplate cs else c :: escapeTemplate cs
  | [] => []

/-- A text inside single quotes. -/
def escapeQuoted (cs : List Char) : List Char :=
  cs.flatMap fun c => if c = '\\' ∨ c = '\'' then ['\\', c] else [c]

/-- The type that every generated declaration exports for its overload. -/
def injectedType : String := "__GraftTypeInjection"

def header : String :=
  "/* eslint-disable */\n/* This file is generated by graft. Do not edit. */\n"

def signature : Argument → String
  | .gql text => "gql(gql: `" ++ String.ofList (escapeTemplate text.toList) ++ "`)"
  | .load path => "load(path: '" ++ String.ofList (escapeQuoted path.toList) ++ "')"

/-- The import and the declaration of the overload number `n`. -/
def renderOverload (n : Nat) (o : Overload) : String :=
  s!"import * as T{n} from '" ++ String.ofList (escapeQuoted o.module.toList) ++ "';\n" ++
    "export declare function " ++ signature o.argument ++ s!": T{n}." ++ injectedType ++ ";\n"

def renderFrom : Nat → List Overload → String
  | _, [] => ""
  | n, o :: os => renderOverload n o ++ renderFrom (n + 1) os

def render (m : Manifest) (entrypoint : Path) : String :=
  match overloads m entrypoint with
  | [] => header ++ "export {};\n"
  | os => header ++ renderFrom 0 os

/-- Writes the entrypoint below the project root. -/
def write (root : Path) (m : Manifest) (entrypoint : Path) :
    Files.Program (Except Files.FileFailure Unit) :=
  Files.writeAtomically (root / entrypoint) (render m entrypoint).toUTF8

end GqlArtifacts.Entrypoint
