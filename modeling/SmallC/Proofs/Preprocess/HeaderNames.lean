import SmallC.Proofs.Directive.Tokens
import SmallC.Proofs.Preprocess.Step

/-!
# The header names of inclusions

An `#include` line looks its header name up as it is written, whatever comes behind the closing
mark. The comment of the line is dropped before the name is read, though. A name in quotes is
protected by them, but a name in angle brackets is cut off where a comment starts in it, and what
is left of it is looked up.
-/

namespace SmallC

namespace Directive

open DirectiveToken

namespace HeaderName

/-- The mark that a header name starts with. -/
def opening : HeaderName → Char
  | .quoted _ => '"'
  | .angled _ => '<'

/-- The mark that a header name ends with. -/
def closing : HeaderName → Char
  | .quoted _ => '"'
  | .angled _ => '>'

/-- A header name as it is written. -/
def written (header : HeaderName) : String :=
  String.ofList (header.opening :: header.path.text.toList ++ [header.closing])

/-- The characters of a header name with what is behind it. -/
theorem toList_written_append (header : HeaderName) (cs : List Char) :
    header.written.toList ++ cs =
      header.opening :: (header.path.text.toList ++ header.closing :: cs) := by
  simp [written]

/-- What is left of the path if a comment starts in the header name. -/
def cut? : HeaderName → Option String
  | .quoted _ => none
  | .angled path =>
    let left := stripComment path.text.toList
    if left = path.text.toList then none else some (String.ofList (Text.trimEnd left))

/-- A path in angle brackets is cut exactly if it has two slashes in it that start a comment. -/
theorem cut?_angled_eq_some_iff {path : Path} {left : String} :
    (angled path).cut? = some left ↔
      stripComment path.text.toList ≠ path.text.toList ∧
        String.ofList (Text.trimEnd (stripComment path.text.toList)) = left := by
  simp only [cut?]
  split
  · rename_i heq
    simp [heq]
  · rename_i hne
    simp [hne]

end HeaderName

/-- A header name is read as it is written, whatever comes behind it. -/
theorem headerName_written {header : HeaderName} (hpath : header.path.text ≠ "")
    (hclosing : header.closing ∉ header.path.text.toList) (rest : List Char) :
    headerName (' ' :: (header.written.toList ++ rest)) = .ok header := by
  rw [header.toList_written_append, headerName,
    Text.trim_delimited (by cases header <;> rfl) (by cases header <;> rfl)]
  have hne : ¬ header.path.text.toList.isEmpty = true := by simpa using hpath
  cases header with
  | quoted path =>
    have hstretch : (path.text.toList ++ '"' :: Text.trimEnd rest).takeWhile (· ≠ '"') =
        path.text.toList := Text.takeWhile_ne_append hclosing (by simp)
    simp only [HeaderName.opening, HeaderName.closing, HeaderName.path, hstretch,
      String.ofList_toList]
    exact if_neg hne
  | angled path =>
    have hstretch : (path.text.toList ++ '>' :: Text.trimEnd rest).takeWhile (· ≠ '>') =
        path.text.toList := Text.takeWhile_ne_append hclosing (by simp)
    simp only [HeaderName.opening, HeaderName.closing, HeaderName.path, hstretch,
      String.ofList_toList]
    exact if_neg hne

/-- A name in angle brackets without its closing mark goes on to the end of the line. -/
theorem headerName_unclosed {cs : List Char} (hcs : '>' ∉ cs) :
    headerName (' ' :: '<' :: cs) =
      if Text.trimEnd cs = [] then .error (.malformed "include path missing")
      else .ok (.angled ⟨String.ofList (Text.trimEnd cs)⟩) := by
  have htrim : Text.trim (' ' :: '<' :: cs) = '<' :: Text.trimEnd cs := by
    rw [Text.trim_cons_of_isSpace rfl, Text.trim, Text.trimStart_of_head? (by simp; rfl)]
    exact Text.trimEnd_append_cons rfl [] cs
  have hstretch : (Text.trimEnd cs ++ []).takeWhile (· ≠ '>') = Text.trimEnd cs :=
    Text.takeWhile_ne_append (mt Text.mem_of_mem_trimEnd hcs) (by simp)
  rw [List.append_nil] at hstretch
  rw [headerName, htrim]
  simp only [hstretch, List.isEmpty_iff]

/-- The target of an `#include` line, after the comment of the line is dropped. -/
theorem ofLine?_include (target : List Char) :
    ofLine? ("#include ".toList ++ target) = some (.include (' ' :: stripComment target)) :=
  ofLine?_of_isIdentifier "include" (by decide) target

/-- A header name that no comment starts in is left as it is written, when the comment of the line
is dropped. -/
theorem exists_stripComment_written {header : HeaderName}
    (hclosing : header.closing ∉ header.path.text.toList) (hcut : header.cut? = none)
    (rest : List Char) :
    ∃ more, stripComment (header.written.toList ++ rest) = header.written.toList ++ more := by
  simp only [header.toList_written_append]
  cases header with
  | quoted path =>
    have hslash : ¬ StartsComment none '"' (path.text.toList ++ '"' :: rest) :=
      not_startsComment_of_ne (by decide)
    have hopening := stripFrom_cons hslash
    exact ⟨stripComment rest, hopening.trans (congrArg _ (stripFrom_some_append hclosing rest))⟩
  | angled path =>
    have hpath : stripComment path.text.toList = path.text.toList := by
      simpa [HeaderName.cut?] using hcut
    obtain ⟨quote, hstrip⟩ := exists_stripFrom_append_of_eq (by decide : '>' ≠ '/') hpath rest
    exact ⟨stripFrom quote rest, (stripComment_cons_of_plain rfl _).trans (congrArg _ hstrip)⟩

/-- A header name that a comment starts in is cut off there, and so is what comes behind it. -/
theorem stripComment_cut {path : Path}
    (hpath : stripComment path.text.toList ≠ path.text.toList) (rest : List Char) :
    stripComment ((HeaderName.angled path).written.toList ++ rest) =
      '<' :: stripComment path.text.toList := by
  rw [HeaderName.toList_written_append]
  exact (stripComment_cons_of_plain rfl _).trans
    (congrArg _ (stripFrom_append_of_ne (by decide : '>' ≠ '/') hpath rest))

end Directive

namespace Preprocess

open Directive

variable {config : PreprocessConfig} {fs : FileSystem} {s : State} {line : Line}

/-- The first file among the candidates for a header name at a line is entered. -/
def lookup (config : PreprocessConfig) (fs : FileSystem) (s : State) (line : Line)
    (header : HeaderName) : Except DirectiveFault Effect :=
  match (candidates config (s.files.get? line.file) header).find? fs.isFile with
  | none => .error (.includeNotFound header.path)
  | some path => .ok (.enter path)

/-- An inclusion looks up the header that its target names. -/
theorem inclusion_of_headerName {target : List Char} {header : HeaderName}
    (h : headerName target = .ok header) :
    inclusion config fs s line target = lookup config fs s line header := by
  rw [inclusion, h]
  rfl

/-- An `#include` in an active group looks up its target, without the comment behind it. -/
theorem activeInclusion?_include {target : List Char} (hlive : s.conditionals.live)
    (htext : line.text.toList = "#include ".toList ++ target) :
    activeInclusion? s line = some (' ' :: DirectiveToken.stripComment target) := by
  simp only [activeInclusion?, htext, ofLine?_include, hlive, if_true]

/-- A header name that no comment starts in is looked up as it is written. -/
theorem inclusion_written {header : HeaderName} (hpath : header.path.text ≠ "")
    (hclosing : header.closing ∉ header.path.text.toList) (hcut : header.cut? = none)
    (rest : List Char) :
    inclusion config fs s line
        (' ' :: DirectiveToken.stripComment (header.written.toList ++ rest)) =
      lookup config fs s line header := by
  obtain ⟨more, hmore⟩ := exists_stripComment_written hclosing hcut rest
  rw [hmore]
  exact inclusion_of_headerName (headerName_written hpath hclosing more)

/-- What is left of a header name that a comment starts in is looked up. -/
theorem inclusion_cut {path : Path} {left : String} (hclosing : '>' ∉ path.text.toList)
    (hcut : (HeaderName.angled path).cut? = some left) (rest : List Char) :
    inclusion config fs s line
        (' ' :: DirectiveToken.stripComment ((HeaderName.angled path).written.toList ++ rest)) =
      if left = "" then .error (.malformed "include path missing")
      else lookup config fs s line (.angled ⟨left⟩) := by
  obtain ⟨hcomment, rfl⟩ := HeaderName.cut?_angled_eq_some_iff.mp hcut
  have hunclosed := headerName_unclosed (mt DirectiveToken.mem_of_mem_stripComment hclosing)
  rw [stripComment_cut hcomment]
  simp only [String.ofList_eq_empty_iff]
  split
  · rename_i hempty
    rw [if_pos hempty] at hunclosed
    rw [inclusion, hunclosed]
  · rename_i hleft
    rw [if_neg hleft] at hunclosed
    exact inclusion_of_headerName hunclosed

/-- The header name of an active `#include` line is looked up as it is written, whatever
characters it has and whatever comes behind it, unless it stands in angle brackets and a comment
starts in it. Then what is left of it is looked up, if that is not empty. -/
theorem step_include_written (config : PreprocessConfig) (fs : FileSystem) (s : State)
    (line : Line) (header : HeaderName) (rest : String) (hlive : s.conditionals.live)
    (hpath : header.path.text ≠ "") (hclosing : header.closing ∉ header.path.text.toList)
    (htext : line.text = "#include " ++ header.written ++ rest) :
    step config fs s line = (s.including line,
      match header.cut? with
      | none => lookup config fs s line header
      | some left =>
        if left = "" then .error (.malformed "include path missing")
        else lookup config fs s line (.angled ⟨left⟩)) := by
  have htarget : line.text.toList =
      "#include ".toList ++ (header.written.toList ++ rest.toList) := by
    simp [htext]
  rw [step_of_activeInclusion config fs (activeInclusion?_include hlive htarget)]
  refine congrArg _ ?_
  cases hcut : header.cut? with
  | none => exact inclusion_written hpath hclosing hcut rest.toList
  | some left =>
    cases header with
    | quoted path => cases hcut
    | angled path => exact inclusion_cut hclosing hcut rest.toList

/-- A file system where a single path is that of a file. -/
def onlyFile (path : String) : FileSystem := ⟨fun p => p.text = path, fun _ => .error .notFound⟩

/-- An apostrophe keeps the slashes behind it from starting a comment. -/
theorem step_include_apostrophe :
    let config : PreprocessConfig := ⟨[⟨"inc"⟩], [], 64⟩
    let line : Line := ⟨"#include <it's//a.h> // see below", 0, 1, 0⟩
    step config (onlyFile "inc/it's//a.h") (.start config) line =
      ((State.start config).including line, .ok (.enter ⟨"inc/it's//a.h"⟩)) := by
  intro config line
  exact step_include_written config (onlyFile "inc/it's//a.h") (.start config) line
    (.angled ⟨"it's//a.h"⟩) " // see below" rfl (by decide) (by decide) (by decide)

/-- A name in angle brackets is not always looked up as it is written. -/
theorem not_forall_step_include_written :
    ¬ ∀ (config : PreprocessConfig) (fs : FileSystem) (s : State) (line : Line)
      (header : HeaderName), s.conditionals.live → header.path.text ≠ "" →
      '\n' ∉ header.path.text.toList → header.closing ∉ header.path.text.toList →
      line.text = "#include " ++ header.written →
      (step config fs s line).2 = lookup config fs s line header := by
  intro h
  let config : PreprocessConfig := ⟨[⟨"inc"⟩], [], 64⟩
  have hline := h config (onlyFile "inc/sys//a.h") (.start config)
    ⟨"#include <sys//a.h>", 0, 1, 0⟩ (.angled ⟨"sys//a.h"⟩) rfl (by decide) (by decide)
    (by decide) (by decide)
  -- the file is there, but `sys` is looked up
  have hfound := congrArg Except.isOk hline
  revert hfound
  decide +kernel

end Preprocess

end SmallC
