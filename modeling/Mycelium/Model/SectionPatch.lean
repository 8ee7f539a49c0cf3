import Mycelium.Model.Text

/-!
# The section patch of a concept

What `patch_concept` does with `replace_section`: the body is read line by line, and the
section of the heading is written anew with the content. Texts are lists of characters.

SOURCE: crates/mycelium-librarian/src/agent.rs
-/

set_option autoImplicit false

namespace Mycelium.Model.SectionPatch

open Mycelium.Model.Text

/-- `str::lines`. -/
def textLines (text : List Char) : List (List Char) := (splitInclusive text).map stripLineEnd

structure PatchState where
  out : List Char
  replaced : Bool
  inTarget : Bool

/-- The heading with the content under it. -/
def sectionText (sectionStart content : List Char) : List Char :=
  sectionStart ++ '\n' :: content ++ ['\n']

/-- One line of the body. SOURCE: agent.rs:1448-1463 -/
def patchLine (sectionStart content : List Char) (st : PatchState) (line : List Char) :
    PatchState :=
  if trim line = sectionStart then
    { out := st.out ++ sectionText sectionStart content, replaced := true, inTarget := true }
  else
    let inTarget := st.inTarget && !(['#', ' '].isPrefixOf line)
    { st with
      inTarget := inTarget
      out := if inTarget then st.out else st.out ++ line ++ ['\n'] }

/-- SOURCE: agent.rs:1443-1477 -/
def replaceSection (body heading content : List Char) : List Char :=
  let sectionStart := '#' :: ' ' :: heading
  let st := (textLines body).foldl (patchLine sectionStart content)
    { out := [], replaced := false, inTarget := false }
  if st.replaced then st.out
  else
    let out := if st.out.getLast? ≠ some '\n' ∧ st.out ≠ [] then st.out ++ ['\n'] else st.out
    out ++ sectionText sectionStart content

end Mycelium.Model.SectionPatch
