import Mathlib.Data.List.TakeWhile
import Mathlib.Tactic.Common

/-! The two scripts that make a program file of the disassembly of an object file. A listing is
the list of its lines, each with the newline that ends it. -/
namespace ArmSim.Inputs

/-- The characters that `str.strip` takes off. -/
def strips (c : Char) : Bool :=
  let n := c.toNat
  0x09 ≤ n && n ≤ 0x0d || 0x1c ≤ n && n ≤ 0x20 || 0x2000 ≤ n && n ≤ 0x200a ||
    [0x85, 0xa0, 0x1680, 0x2028, 0x2029, 0x202f, 0x205f, 0x3000].contains n

def strip (s : List Char) : List Char :=
  ((s.dropWhile strips).reverse.dropWhile strips).reverse

/-- The body of the loop of `asm2hex_3`: the second part of a line whose first one is a label. -/
def bytecode (line : List Char) : Option (List Char) :=
  match line.splitOn '\t' with
  | label :: code :: _ => if (strip label).getLast? = some ':' then some (strip code) else none
  | _ => none

/-- `asm2hex_3`. -/
def asm2hex3 (lines : List (List Char)) : List Char :=
  "\n".toList.intercalate (lines.filterMap bytecode)

/-- `x.split('\t')[1]`, for the lines that have a tab. -/
def secondPart (line : List Char) : List Char := (line.splitOn '\t').getD 1 []

/-- `asm2hex`. -/
def asm2hex (lines : List (List Char)) : List Char :=
  "\n".toList.intercalate ((lines.filter fun x => x.contains '\t').map secondPart)

theorem strip_append {solid pad : List Char} (hs : ∀ c ∈ solid, strips c = false)
    (hp : ∀ c ∈ pad, strips c = true) : strip (solid ++ pad) = solid := by
  have hkeep (l : List Char) (h : ∀ c ∈ l, strips c = false) : l.dropWhile strips = l := by
    cases l with
    | nil => rfl
    | cons c cs => exact List.dropWhile_cons_of_neg (by simp [h c List.mem_cons_self])
  have hback : (pad.reverse ++ solid.reverse).dropWhile strips = solid.reverse := by
    rw [List.dropWhile_append_of_pos fun c hc => hp c (List.mem_reverse.mp hc)]
    exact hkeep _ fun c hc => hs c (List.mem_reverse.mp hc)
  unfold strip
  cases solid with
  | nil =>
    have hnil : ([] ++ pad).dropWhile strips = [] := by simpa using hp
    rw [hnil]
    rfl
  | cons c cs =>
    have hfront : (c :: cs ++ pad).dropWhile strips = c :: cs ++ pad :=
      List.dropWhile_cons_of_neg (by simp [hs c List.mem_cons_self])
    rw [hfront, List.reverse_append, hback, List.reverse_reverse]

section Line
variable {label code : List Char} (hl : '\t' ∉ label) (hc : '\t' ∉ code) (text : List Char)
include hl hc

theorem splitOn_line : (label ++ '\t' :: (code ++ '\t' :: text)).splitOn '\t' =
    label :: code :: text.splitOn '\t' := by
  rw [List.splitOn_append_cons_self_of_not_mem hl, List.splitOn_append_cons_self_of_not_mem hc]

theorem bytecode_line (hlabel : (strip label).getLast? = some ':') :
    bytecode (label ++ '\t' :: (code ++ '\t' :: text)) = some (strip code) := by
  unfold bytecode
  simp only [splitOn_line hl hc, if_pos hlabel]

theorem secondPart_line : secondPart (label ++ '\t' :: (code ++ '\t' :: text)) = code := by
  unfold secondPart
  rw [splitOn_line hl hc]
  rfl

end Line

theorem bytecode_of_no_tab {line : List Char} (h : '\t' ∉ line) : bytecode line = none := by
  unfold bytecode
  rw [List.splitOn_eq_singleton h]

end ArmSim.Inputs
