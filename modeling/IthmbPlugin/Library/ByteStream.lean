import Mathlib.Data.List.Basic

/-!
# Reading a stream to a fixed length or to its end

An opened stream is the list of what successive reads meet: a chunk of data,
an interruption, which the reader retries, or a failure. A chunk of no bytes
and the end of the list are both end of file. The two loops differ in what a
failure means to them: one asks for a prefix only, the other for everything.
-/

set_option autoImplicit false

namespace IthmbPlugin.ByteStream

variable {B : Type*}

inductive ReadEvent (B : Type*) where
  | data (chunk : List B)
  | interrupted
  | failed
  deriving DecidableEq, Repr

/-- `Read::read_exact` into a buffer of `n` elements; end of file before the
buffer is full is an error. -/
def readExact : ℕ → List (ReadEvent B) → Option (List B)
  | 0, _ => some []
  | _+1, [] => none
  | _+1, .data []::_ => none
  | n+1, .data (b::bs)::rest =>
    (readExact (n+1-(b::bs).length) rest).map (fun tail => (b::bs).take (n+1)++tail)
  | n+1, .interrupted::rest => readExact (n+1) rest
  | _+1, .failed::_ => none

def readToEnd : List (ReadEvent B) → Option (List B)
  | [] => some []
  | .data []::_ => some []
  | .data (b::bs)::rest => (readToEnd rest).map (fun tail => (b::bs)++tail)
  | .interrupted::rest => readToEnd rest
  | .failed::_ => none

def delivered : List (ReadEvent B) → List B
  | [] => []
  | .data []::_ => []
  | .data (b::bs)::rest => (b::bs)++delivered rest
  | .interrupted::rest => delivered rest
  | .failed::_ => []

def fails : List (ReadEvent B) → Bool
  | [] => false
  | .data []::_ => false
  | .data (_::_)::rest => fails rest
  | .interrupted::rest => fails rest
  | .failed::_ => true

theorem readToEnd_eq (s : List (ReadEvent B)) :
    readToEnd s = if fails s then none else some (delivered s) := by
  induction s with
  | nil => rfl
  | cons e s ih =>
    cases e with
    | data chunk =>
      cases chunk with
      | nil => rfl
      | cons b bs =>
        rw [readToEnd, ih, fails, delivered]
        split_ifs <;> rfl
    | interrupted => exact ih
    | failed => rfl

theorem readExact_eq (n : ℕ) (s : List (ReadEvent B)) :
    readExact n s = if n ≤ (delivered s).length then some ((delivered s).take n) else none := by
  induction s generalizing n with
  | nil => cases n <;> rfl
  | cons e s ih =>
    cases n with
    | zero => simp [readExact]
    | succ n =>
      cases e with
      | data chunk =>
        cases chunk with
        | nil => rfl
        | cons b bs =>
          rw [readExact, ih, delivered, List.take_append]
          by_cases h : n+1 ≤ ((b::bs)++delivered s).length
          · have h' : n+1-(b::bs).length ≤ (delivered s).length := by
              rw [List.length_append] at h
              omega
            rw [if_pos h, if_pos h', Option.map_some]
          · have h' : ¬ n+1-(b::bs).length ≤ (delivered s).length := by
              rw [List.length_append] at h
              omega
            rw [if_neg h, if_neg h', Option.map_none]
      | interrupted => exact ih (n+1)
      | failed => rfl

def Continues (s : List (ReadEvent B)) : Prop := .failed ∉ s ∧ .data [] ∉ s

theorem Continues.tail {e : ReadEvent B} {s : List (ReadEvent B)} (h : Continues (e::s)) :
    Continues s :=
  ⟨List.not_mem_of_not_mem_cons h.1, List.not_mem_of_not_mem_cons h.2⟩

theorem readToEnd_append {s : List (ReadEvent B)} (h : Continues s) (rest : List (ReadEvent B)) :
    readToEnd (s++rest) = (readToEnd rest).map (fun tail => delivered s++tail) := by
  induction s with
  | nil => exact Option.map_id'.symm
  | cons e s ih =>
    cases e with
    | data chunk =>
      cases chunk with
      | nil => exact absurd List.mem_cons_self h.2
      | cons b bs =>
        rw [List.cons_append, readToEnd, ih h.tail, Option.map_map, delivered]
        apply congrArg (fun f => (readToEnd rest).map f)
        funext tail
        simp
    | interrupted => exact ih h.tail
    | failed => exact absurd List.mem_cons_self h.1

theorem Continues.append {s t : List (ReadEvent B)} (hs : Continues s) (ht : Continues t) :
    Continues (s++t) := by
  constructor
  · simp [hs.1, ht.1]
  · simp [hs.2, ht.2]

theorem delivered_append {s : List (ReadEvent B)} (h : Continues s) (t : List (ReadEvent B)) :
    delivered (s++t) = delivered s++delivered t := by
  induction s with
  | nil => rfl
  | cons e s ih =>
    cases e with
    | data chunk =>
      cases chunk with
      | nil => exact absurd List.mem_cons_self h.2
      | cons b bs => simp [delivered, ih h.tail]
    | interrupted => exact ih h.tail
    | failed => exact absurd List.mem_cons_self h.1

/-- A stream that fails only when it delivers nothing: reading gives the whole
content or an error from the first read on. -/
def WholeOrNothing (s : List (ReadEvent B)) : Prop := fails s = true → delivered s = []

instance [DecidableEq B] (s : List (ReadEvent B)) : Decidable (WholeOrNothing s) :=
  inferInstanceAs (Decidable (_ → _))

end IthmbPlugin.ByteStream
