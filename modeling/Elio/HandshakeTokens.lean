/-
**The token lists of the opening handshake.**

`http/websocket_handshake.hpp` reads three header fields as lists.  `header_has_token` looks for one
token in `Connection` and `Upgrade`, and `parse_protocols` takes the subprotocols out of
`Sec-WebSocket-Protocol`, of which `negotiate_protocol` picks one.

The two functions split at commas in loops of their own.  `header_has_token` goes on while the
position is at most the size, so it also looks at the empty element after a last comma;
`parse_protocols` stops at the size, skips blanks before it looks for the comma, and leaves empty
elements out.  Both read the same list, `value.splitOn comma` with the blanks around each element
taken off.  In the loops here, what is left from the current position on is the argument.

Main results:

* `headerHasToken_iff`, `parseProtocols_eq`, `negotiateProtocol_spec` — what each of them reads;
* `handshake_lists` — **the handshake reads its header fields as lists.**
-/

import Elio.HeaderLines

set_option autoImplicit false

namespace Elio.WebSocket

open Elio.Http
open List

/-- `','`. -/
def comma : UInt8 := 0x2c

/-- `header_has_token`. -/
def headerHasToken (value token : Bytes) : Bool :=
  match h : value.idxOf? comma with
  | none => asciiIequals (trimOws value) token
  | some k =>
    if asciiIequals (trimOws (value.take k)) token then true
    else headerHasToken (value.drop (k + 1)) token
termination_by value.length
decreasing_by
  have := (idxOf?_eq_some_iff.1 h).1
  rw [length_drop]
  omega

/-- `parse_protocols`. -/
def parseProtocols (protocols : Bytes) : List Bytes :=
  if protocols = [] then []
  else
    let rest := protocols.dropWhile isOws
    let stop := (rest.idxOf? comma).getD rest.length
    let token := (rest.take stop).rdropWhile isOws
    if token ≠ [] then token :: parseProtocols (rest.drop (stop + 1))
    else parseProtocols (rest.drop (stop + 1))
termination_by protocols.length
decreasing_by
  all_goals
    have := length_pos_iff.2 ‹protocols ≠ []›
    have := (protocols.dropWhile_sublist isOws).length_le
    rw [length_drop]
    omega

/-- `negotiate_protocol`. -/
def negotiateProtocol (client server : List Bytes) : Bytes :=
  match client with
  | [] => []
  | clientProto :: rest =>
    if server.any (clientProto = ·) then clientProto else negotiateProtocol rest server

/-! ### Elements -/

/-- The first element of a list, and the rest of the list. -/
theorem splitOn_idxOf (c : UInt8) (value : Bytes) :
    value.splitOn c = match value.idxOf? c with
      | none => [value]
      | some k => value.take k :: (value.drop (k + 1)).splitOn c := by
  induction value with
  | nil => rfl
  | cons a s ih =>
    rw [splitOn_cons_eq_if_modifyHead, idxOf?_cons]
    by_cases hac : (a == c) = true
    · rw [if_pos hac, if_pos hac]
      rfl
    · rw [if_neg hac, if_neg hac, ih]
      cases s.idxOf? c with
      | none => rfl
      | some k => rfl

/-- **`header_has_token` looks at every element.** -/
theorem headerHasToken_iff (value token : Bytes) :
    headerHasToken value token = true ↔
      ∃ e ∈ value.splitOn comma, asciiIequals (trimOws e) token = true := by
  fun_induction headerHasToken value token with
  | case1 value h => simp [splitOn_idxOf comma value, h]
  | case2 value k h hfound => simp [splitOn_idxOf comma value, h, hfound]
  | case3 value k h hother ih => simp [splitOn_idxOf comma value, h, hother, ih]

/-- After the blanks at the front are skipped there is nothing to take off the front of the first
element. -/
theorem trimOws_take (s : Bytes) (k : ℕ) :
    trimOws ((s.dropWhile isOws).take k) = ((s.dropWhile isOws).take k).rdropWhile isOws := by
  have hhead := head?_dropWhile_not isOws s
  rw [trimOws]
  cases hs : s.dropWhile isOws with
  | nil => simp
  | cons a rest =>
    rw [hs] at hhead
    cases k with
    | zero => rfl
    | succ k => rw [take_succ_cons, dropWhile_cons_of_neg (by simpa using hhead)]

/-- What a turn of the loop takes off the list.  After the last element nothing is left, which is
one more empty element. -/
theorem tokens_step {s rest : Bytes} {stop : ℕ} (hrest : s.dropWhile isOws = rest)
    (hstop : (rest.idxOf? comma).getD rest.length = stop) :
    ((s.splitOn comma).map trimOws).filter (· ≠ []) =
      ((rest.take stop).rdropWhile isOws ::
        ((rest.drop (stop + 1)).splitOn comma).map trimOws).filter (· ≠ []) := by
  rw [← tokens_dropWhile rfl s, splitOn_idxOf, ← hrest, ← trimOws_take, hrest]
  subst hstop
  cases rest.idxOf? comma with
  | none =>
    have hend : rest.drop (rest.length + 1) = [] := drop_eq_nil_of_le (Nat.le_succ _)
    rw [Option.getD_none, take_length, hend, map_singleton, filter_cons, filter_cons]
    rfl
  | some k => rfl

/-- **`parse_protocols` returns the elements that are not empty**, in order. -/
theorem parseProtocols_eq (protocols : Bytes) :
    parseProtocols protocols = ((protocols.splitOn comma).map trimOws).filter (· ≠ []) := by
  fun_induction parseProtocols protocols with
  | case1 => rfl
  | case2 protocols _ rest stop token htoken ih =>
    rw [tokens_step rfl rfl, filter_cons, ih]
    exact (if_pos (decide_eq_true htoken)).symm
  | case3 protocols _ rest stop token htoken ih =>
    rw [tokens_step rfl rfl, filter_cons, ih]
    exact (if_neg (mt of_decide_eq_true htoken)).symm

/-- **`negotiate_protocol` returns the first protocol of the client that the server has**, or the
empty text. -/
theorem negotiateProtocol_spec (client server : List Bytes) :
    (∃ before p after, client = before ++ p :: after ∧ p ∈ server ∧
        (∀ q ∈ before, q ∉ server) ∧ negotiateProtocol client server = p) ∨
      ((∀ q ∈ client, q ∉ server) ∧ negotiateProtocol client server = []) := by
  induction client with
  | nil => exact .inr ⟨nofun, rfl⟩
  | cons p rest ih =>
    by_cases hp : p ∈ server
    · refine .inl ⟨[], p, rest, rfl, hp, nofun, ?_⟩
      simp [negotiateProtocol, hp]
    · have hnext : negotiateProtocol (p :: rest) server = negotiateProtocol rest server := by
        simp [negotiateProtocol, hp]
      rw [hnext]
      rcases ih with ⟨before, q, after, rfl, hq, hbefore, heq⟩ | ⟨hnone, heq⟩
      · exact .inl ⟨p :: before, q, after, rfl, hq, forall_mem_cons.2 ⟨hp, hbefore⟩, heq⟩
      · exact .inr ⟨forall_mem_cons.2 ⟨hp, hnone⟩, heq⟩

/-- **The handshake reads its header fields as lists.** -/
theorem handshake_lists (value : Bytes) :
    (∀ token, headerHasToken value token = true ↔
      ∃ e ∈ value.splitOn comma, asciiIequals (trimOws e) token = true) ∧
    parseProtocols value = ((value.splitOn comma).map trimOws).filter (· ≠ []) ∧
    ∀ client server : List Bytes,
      (∃ before p after, client = before ++ p :: after ∧ p ∈ server ∧
        (∀ q ∈ before, q ∉ server) ∧ negotiateProtocol client server = p) ∨
      ((∀ q ∈ client, q ∉ server) ∧ negotiateProtocol client server = []) :=
  ⟨headerHasToken_iff value, parseProtocols_eq value, negotiateProtocol_spec⟩

end Elio.WebSocket
