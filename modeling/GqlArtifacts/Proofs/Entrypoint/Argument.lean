import GqlArtifacts.Context
import GqlArtifacts.Proofs.Entrypoint
import GqlArtifacts.Proofs.Source.Literal
import GqlArtifacts.Proofs.Source.ScriptCall

/-!
# The string of an overload

The entrypoint writes the argument of an overload as a literal, and the string of that literal is the
text that the row keeps (`value?_escapeTemplate`, `value?_escapeQuoted`). The row keeps the argument of
the call as it is written in the script. So the overload has the string of the call just when nothing
in the argument stands for something else (`value?_overload_iff`).
-/

namespace GqlArtifacts.Entrypoint

open Literal

variable {c q : Char} {cs : List Char} {us : List Nat}

/-! ### Escaped texts -/

theorem unfolded?_escaped (us : List Nat) (h : readEscape? (c :: cs) = some (us, cs)) :
    unfolded? q ('\\' :: c :: cs) = (unfolded? q cs).map (us ++ ·) := by
  rw [unfolded?]
  split
  · next us' rest heq =>
    obtain ⟨rfl, rfl⟩ := Prod.mk.inj (Option.some.inj (h.symm.trans heq))
    rfl
  · next heq => rw [h] at heq; cases heq

theorem unfolded?_cons (hc : c ≠ '\\') (hbreaks : breaks q c cs = false) :
    unfolded? q (c :: cs) = (unfolded? q cs).map (units c.toNat ++ ·) := by
  rw [unfolded?, hbreaks]
  · rfl
  · exact hc

/-- A character that needs no escape. -/
theorem escapeTemplate_cons (hc : ¬(c = '\\' ∨ c = '`')) (hdollar : c = '$' → cs.head? ≠ some '{') :
    escapeTemplate (c :: cs) = c :: escapeTemplate cs := by
  rw [escapeTemplate, if_neg hc]
  rintro cs' rfl rfl
  exact hdollar rfl rfl

theorem head?_escapeTemplate (hc : c ≠ '\\') (h : (escapeTemplate cs).head? = some c) :
    cs.head? = some c := by
  fun_cases escapeTemplate cs with
  | case1 cs => exact absurd (Option.some.inj h).symm hc
  | case2 d cs _ hspecial =>
    rw [escapeTemplate, if_pos hspecial] at h
    · exact absurd (Option.some.inj h).symm hc
    · assumption
  | case3 d cs _ hspecial =>
    rw [escapeTemplate, if_neg hspecial] at h
    · exact h
    · assumption
  | case4 => cases h

theorem unfolded?_escapeTemplate (cs : List Char) :
    unfolded? '`' (escapeTemplate cs) = some (unitsOf cs) := by
  fun_induction escapeTemplate cs with
  | case1 cs ih =>
    rw [unfolded?_escaped (units '$'.toNat) rfl, unfolded?_cons (by decide) rfl, ih]
    rfl
  | case2 c cs _ hspecial ih =>
    rw [unfolded?_escaped (units c.toNat) (by rcases hspecial with rfl | rfl <;> rfl), ih,
      unitsOf_cons]
    rfl
  | case3 c cs hdollar hspecial ih =>
    obtain ⟨hbackslash, hquote⟩ := not_or.1 hspecial
    have hbreaks : breaks '`' c (escapeTemplate cs) = false := by
      have : ¬(c = '$' ∧ (escapeTemplate cs).head? = some '{') := by
        rintro ⟨rfl, hhead⟩
        obtain ⟨cs', rfl⟩ := List.head?_eq_some_iff.1 (head?_escapeTemplate (by decide) hhead)
        exact hdollar cs' rfl rfl
      simpa [breaks, hquote] using this
    rw [unfolded?_cons hbackslash hbreaks, ih, unitsOf_cons]
    rfl
  | case4 => rw [unfolded?]; rfl

theorem lineFeeds_escapeTemplate (cs : List Char) :
    lineFeeds (escapeTemplate cs) = escapeTemplate (lineFeeds cs) := by
  fun_induction lineFeeds cs with
  | case1 => rfl
  | case2 cs ih => simp [escapeTemplate, lineFeeds, ih]
  | case3 cs hnext ih =>
    have hplain : ∀ c ∈ ['\r', '\n'], ∀ cs, escapeTemplate (c :: cs) = c :: escapeTemplate cs := by
      simp [escapeTemplate]
    rw [hplain _ (by simp), hplain _ (by simp), lineFeeds, ih]
    intro cs' heq
    obtain ⟨cs'', rfl⟩ := List.head?_eq_some_iff.1
      (head?_escapeTemplate (c := '\n') (by decide) (by rw [heq]; rfl))
    exact hnext _ rfl
  | case4 c cs _ hreturn ih =>
    by_cases hspecial : c = '\\' ∨ c = '`'
    · rcases hspecial with rfl | rfl <;> simp [escapeTemplate, lineFeeds, ih]
    by_cases hdollar : c = '$' ∧ cs.head? = some '{'
    · obtain ⟨rfl, hhead⟩ := hdollar
      obtain ⟨cs, rfl⟩ := List.head?_eq_some_iff.1 hhead
      simp_all [escapeTemplate, lineFeeds]
    · rw [escapeTemplate_cons hspecial fun hc hhead => hdollar ⟨hc, hhead⟩,
        escapeTemplate_cons hspecial fun hc hhead =>
          hdollar ⟨hc, head?_lineFeeds (by decide) hhead⟩, lineFeeds_cons hreturn, ih]

/-- A template literal of an escaped text denotes the text, apart from its line ends. -/
theorem value?_escapeTemplate (cs : List Char) :
    value? '`' (escapeTemplate cs) = some (unitsOf (lineFeeds cs)) := by
  rw [value?, if_pos rfl, lineFeeds_escapeTemplate, unfolded?_escapeTemplate]

theorem escapeQuoted_cons (c : Char) (cs : List Char) : escapeQuoted (c :: cs) =
    if c = '\\' ∨ c = '\'' then '\\' :: c :: escapeQuoted cs else c :: escapeQuoted cs := by
  rw [escapeQuoted, List.flatMap_cons]
  split <;> rfl

/-- A quoted literal of an escaped text denotes the text, if that is one line. -/
theorem value?_escapeQuoted (cs : List Char) :
    value? '\'' (escapeQuoted cs) = if '\n' ∈ cs ∨ '\r' ∈ cs then none else some (unitsOf cs) := by
  rw [value?, if_neg (by decide)]
  induction cs with
  | nil => simp [escapeQuoted, unfolded?, unitsOf]
  | cons c cs ih =>
    by_cases hend : c = '\n' ∨ c = '\r'
    · have hmem : '\n' ∈ c :: cs ∨ '\r' ∈ c :: cs := by
        rcases hend with rfl | rfl <;> simp
      have hspecial : ¬(c = '\\' ∨ c = '\'') := by
        rcases hend with rfl | rfl <;> decide
      have hbreaks : breaks '\'' c (escapeQuoted cs) = true := by
        rcases hend with rfl | rfl <;> rfl
      rw [if_pos hmem, escapeQuoted_cons, if_neg hspecial, unfolded?, hbreaks]
      · rfl
      · exact (not_or.1 hspecial).1
    · have hmem : ('\n' ∈ c :: cs ∨ '\r' ∈ c :: cs) ↔ ('\n' ∈ cs ∨ '\r' ∈ cs) := by
        simp only [List.mem_cons]
        have := not_or.1 hend
        grind
      have hread : unfolded? '\'' (escapeQuoted (c :: cs)) =
          (unfolded? '\'' (escapeQuoted cs)).map (units c.toNat ++ ·) := by
        rw [escapeQuoted_cons]
        split
        · next hspecial =>
          exact unfolded?_escaped _ (by rcases hspecial with rfl | rfl <;> rfl)
        · next hspecial =>
          obtain ⟨hbackslash, hquote⟩ := not_or.1 hspecial
          exact unfolded?_cons hbackslash (by simpa [breaks, hquote] using not_or.1 hend)
      simp only [hread, ih, hmem]
      split
      · rfl
      · rw [unitsOf_cons]
        rfl

/-! ### Overloads -/

namespace Argument

/-- The argument that an overload for a call answers to. -/
def ofCall : ScriptCall → Argument
  | .gql text => .gql text
  | .load argument => .load argument

/-- What stands before the literal of an overload. -/
def opening : Argument → List Char
  | gql _ => "gql(gql: ".toList
  | load _ => "load(path: ".toList

def quote : Argument → Char
  | gql _ => '`'
  | load _ => '\''

/-- The text between the quotes of an overload. -/
def inside : Argument → List Char
  | gql text => escapeTemplate text.toList
  | load path => escapeQuoted path.toList

theorem toList_signature (a : Argument) :
    (signature a).toList = a.opening ++ a.quote :: (a.inside ++ [a.quote, ')']) := by
  have henclose : ∀ (before after : String) (cs : List Char),
      (before ++ String.ofList cs ++ after).toList = before.toList ++ (cs ++ after.toList) := by
    intro before after cs
    rw [String.toList_append, String.toList_append, String.toList_ofList, List.append_assoc]
  cases a with
  | gql text =>
    have hopening : "gql(gql: `".toList = "gql(gql: ".toList ++ ['`'] := by decide
    refine (henclose "gql(gql: `" "`)" _).trans ?_
    rw [hopening, List.append_assoc]
    rfl
  | load path =>
    have hopening : "load(path: '".toList = "load(path: ".toList ++ ['\''] := by decide
    refine (henclose "load(path: '" "')" _).trans ?_
    rw [hopening, List.append_assoc]
    rfl

/-- The string that the literal of an overload denotes. -/
def value? (a : Argument) : Option (List Nat) := Literal.value? a.quote a.inside

end Argument

/-- No escape is in the argument and, in that of `load`, no line end: it stands for itself between any
quotes. -/
def Verbatim : ScriptCall → Prop
  | .gql text => '\\' ∉ text.toList
  | .load argument =>
    '\\' ∉ argument.toList ∧ ¬('\n' ∈ argument.toList ∨ '\r' ∈ argument.toList)

/-- The literal of the overload denotes the string of the call just when the argument is verbatim. -/
theorem value?_ofCall_iff {call : ScriptCall} (hquote : ScriptCall.isQuoteFor call.isLoad q = true)
    (hus : value? q call.text.toList = some us) :
    (Argument.ofCall call).value? = some us ↔ Verbatim call := by
  rw [value?] at hus
  cases call with
  | gql text =>
    obtain rfl : q = '`' := by simpa [ScriptCall.isQuoteFor, ScriptCall.isLoad] using hquote
    rw [if_pos rfl] at hus
    have hvalue : (Argument.ofCall (.gql text)).value? = some (unitsOf (lineFeeds text.toList)) :=
      value?_escapeTemplate _
    rw [hvalue, Option.some.injEq, eq_comm]
    exact (unfolded?_eq_unitsOf_iff hus).trans (not_congr backslash_mem_lineFeeds)
  | load argument =>
    have hvalue : (Argument.ofCall (.load argument)).value? = _ := value?_escapeQuoted argument.toList
    rw [hvalue, Verbatim]
    by_cases hends : '\n' ∈ argument.toList ∨ '\r' ∈ argument.toList
    · rw [if_pos hends]
      exact iff_of_false (Option.some_ne_none us).symm fun h => h.2 hends
    · rw [if_neg hends]
      have hlines : (if q = '`' then lineFeeds argument.toList else argument.toList) =
          argument.toList := by
        rw [lineFeeds_eq_self (not_or.1 hends).2, ite_self]
      rw [show (ScriptCall.load argument).text = argument from rfl, hlines] at hus
      rw [Option.some.injEq, eq_comm, unfolded?_eq_unitsOf_iff hus]
      exact ⟨fun h => ⟨h, hends⟩, And.left⟩

theorem argument?_row {call : ScriptCall} {c : Context} (hc : call.Gives c.unit) :
    argument? c.row = some (.ofCall call) := by
  cases call with
  | gql text =>
    obtain ⟨-, hkind, hcontent⟩ := hc
    rw [Context.row, hkind, hcontent]
    rfl
  | load argument =>
    obtain ⟨target, hkind⟩ := hc
    rw [Context.row, hkind]
    rfl

theorem dts_row (c : Context) : c.row.dts = c.paths.dts := by
  rw [Context.row]
  split <;> rfl

/-- What an entrypoint declares for a call that is recorded alone. -/
theorem render_record {call : ScriptCall} {c : Context} (hc : call.Gives c.unit) (version : String)
    (x : Path) : render ((Manifest.empty version).record c.path c.hash c.row) x = header ++
      renderOverload 0 ⟨.ofCall call, moduleName (x.parent?.getD ⟨""⟩) c.paths.dts⟩ := by
  have hrow : overload? (x.parent?.getD ⟨""⟩) c.row =
      some ⟨.ofCall call, moduleName (x.parent?.getD ⟨""⟩) c.paths.dts⟩ := by
    rw [overload?, argument?_row hc, dts_row]
    rfl
  have hlist : ((Manifest.empty version).record c.path c.hash c.row).toList =
      [(c.path, c.hash, c.row)] := rfl
  have hoverloads : overloads ((Manifest.empty version).record c.path c.hash c.row) x =
      [⟨.ofCall call, moduleName (x.parent?.getD ⟨""⟩) c.paths.dts⟩] := by
    rw [overloads, hlist]
    exact List.filterMap_cons_some hrow
  rw [render, hoverloads]
  exact congrArg (header ++ ·) (String.append_empty ..)

/-- Every call that is found in a script stands there: its name and, in parentheses, a literal. The
entrypoint for the call alone declares one overload, with one literal for its argument. If the literal
of the call denotes a string, that of the overload denotes the same string just when the argument is
verbatim. -/
theorem denotes_iff_verbatim {source : String} {l : ScriptCall.Located} {c : Context}
    (hl : l ∈ ScriptCall.find 0 false source.toList) (hc : l.call.Gives c.unit) (version : String)
    (x : Path) : ∃ q o, l.StandsIn q 0 source.toList ∧
      render ((Manifest.empty version).record c.path c.hash c.row) x = header ++ renderOverload 0 o ∧
      (signature o.argument).toList = o.argument.opening ++
        o.argument.quote :: (o.argument.inside ++ [o.argument.quote, ')']) ∧
      ∀ us, value? q l.call.text.toList = some us →
        (o.argument.value? = some us ↔ Verbatim l.call) := by
  obtain ⟨q, hstands⟩ := ScriptCall.exists_of_mem_find hl
  have ⟨_, _, _, _, _, _, _, _, _, hquote⟩ := hstands
  exact ⟨q, _, hstands, render_record hc version x, Argument.toList_signature _, fun us hus =>
    value?_ofCall_iff hquote hus⟩

namespace Sample

/-- A script with a call that has no escapes. -/
def plain : String := "gql(`{a}`)"

/-- A script with a call that has escaped quotes inside. -/
def escaped : String := "gql(`\x7ba(s: \\`b\\`)\x7d`)"

def argument : String := "\x7ba(s: \\`b\\`)\x7d"

def string : String := "\x7ba(s: `b`)\x7d"

def context (text : String) : Context :=
  ⟨⟨⟨"a.ts"⟩, text, .literal⟩, text, default, ⟨⟨"a.tsx"⟩, ⟨"a.tsx"⟩, ⟨"a.d.ts"⟩, ⟨"a.d.ts"⟩⟩, false⟩

end Sample

theorem denotes_iff_verbatim_plain : ∃ o,
    render ((Manifest.empty "1").record ⟨"a.ts"⟩ default (Sample.context "{a}").row) ⟨"g.d.ts"⟩ =
      header ++ renderOverload 0 o ∧
    o.argument.value? = some (unitsOf "{a}".toList) := by
  have hfound : (⟨0, 10, .gql "{a}"⟩ : ScriptCall.Located) ∈
      ScriptCall.find 0 false Sample.plain.toList := by decide +kernel
  have hunits : Files.answer (Discovery.unitsOfCall ⟨""⟩ ⟨"a.ts"⟩ (.gql "{a}")) .empty =
      .ok [(Sample.context "{a}").unit] := rfl
  have hgives := ScriptCall.gives_of_mem_unitsOfCall hunits
  obtain ⟨q, o, ⟨_, _, _, _, _, _, _, _, _, hquote⟩, hrender, -, hdenotes⟩ :=
    denotes_iff_verbatim hfound (hgives _ (List.mem_singleton_self _)) "1" ⟨"g.d.ts"⟩
  obtain rfl : q = '`' := by simpa [ScriptCall.isQuoteFor, ScriptCall.isLoad] using hquote
  exact ⟨o, hrender, (hdenotes _ (by decide +kernel)).2 (show '\\' ∉ "{a}".toList by decide)⟩

/-- The overload of a call with escapes does not have its string. -/
theorem escaped_denotes_other :
    (⟨0, 20, .gql Sample.argument⟩ : ScriptCall.Located) ∈ ScriptCall.find 0 false Sample.escaped.toList ∧
    value? '`' Sample.argument.toList = some (unitsOf Sample.string.toList) ∧
    render ((Manifest.empty "1").record ⟨"a.ts"⟩ default (Sample.context Sample.argument).row)
      ⟨"g.d.ts"⟩ = header ++ renderOverload 0 ⟨.gql Sample.argument, "./a"⟩ ∧
    (Argument.gql Sample.argument).value? ≠ some (unitsOf Sample.string.toList) := by
  decide +kernel

end GqlArtifacts.Entrypoint
