import Mathlib.Algebra.Group.Nat.Defs
import Mathlib.Data.List.Nodup
import Mathlib.Data.List.Perm.Subperm
import TreeImage.FileSystem.Calls
import TreeImage.Proofs.Path.Spelling

set_option autoImplicit false

/-! # Names of temporary files

Different numbers give different tokens, so one of the candidates for a temporary file is always free
(`get?_freshName`). Temporary names are proper, and longer than the name they are made for. -/

namespace TreeImage

namespace FileSystem

/-! ## Tokens -/

/-- The number that a token is read as. -/
def tokenValue : Bytes → Nat
  | [] => 0
  | c :: rest => tokenAlphabet.idxOf c + 62 * tokenValue rest

theorem idxOf_tokenAlphabet : ∀ i < 62, tokenAlphabet.idxOf (tokenAlphabet.getD i 0) = i := by decide

theorem getD_mem_tokenAlphabet : ∀ i < 62, tokenAlphabet.getD i 0 ∈ tokenAlphabet := by decide

theorem tokenValue_tokenFrom {fuel n : Nat} (width : Nat) (h : n ≤ fuel) :
    tokenValue (tokenFrom fuel width n) = n := by
  induction fuel generalizing width n with
  | zero =>
    obtain rfl : n = 0 := Nat.le_zero.1 h
    rfl
  | succ fuel ih =>
    rw [tokenFrom]
    split
    · next hend => exact hend.2.symm
    · rw [tokenValue, idxOf_tokenAlphabet _ (Nat.mod_lt _ (by decide)), ih _ (by omega)]
      omega

theorem token_injective : Function.Injective token := by
  intro n m h
  have hvalue := congrArg tokenValue h
  rwa [token, token, tokenValue_tokenFrom 6 (Nat.le_add_right n 7),
    tokenValue_tokenFrom 6 (Nat.le_add_right m 7)] at hvalue

theorem mem_tokenAlphabet_of_mem {fuel width n : Nat} {c : UInt8} (h : c ∈ tokenFrom fuel width n) :
    c ∈ tokenAlphabet := by
  induction fuel generalizing width n with
  | zero => exact absurd h List.not_mem_nil
  | succ fuel ih =>
    rw [tokenFrom] at h
    split at h
    · exact absurd h List.not_mem_nil
    · rcases List.mem_cons.1 h with rfl | h
      · exact getD_mem_tokenAlphabet _ (Nat.mod_lt _ (by decide))
      · exact ih h

/-- A number that six places can hold has six. -/
theorem length_tokenFrom {fuel width n : Nat} (hfuel : width ≤ fuel) (hn : n < 62 ^ width) :
    (tokenFrom fuel width n).length = width := by
  induction fuel generalizing width n with
  | zero =>
    obtain rfl : width = 0 := Nat.le_zero.1 hfuel
    rfl
  | succ fuel ih =>
    cases width with
    | zero =>
      obtain rfl : n = 0 := by simpa using hn
      rfl
    | succ width =>
      rw [tokenFrom, if_neg (by omega), List.length_cons, Nat.add_sub_cancel, ih (by omega)]
      exact Nat.div_lt_of_lt_mul (by rwa [Nat.pow_succ, Nat.mul_comm] at hn)

theorem length_token {n : Nat} (hn : n < 62 ^ 6) : (token n).length = 6 :=
  length_tokenFrom (by omega) hn

/-! ## Names -/

variable {name : Name} {n : Nat}

theorem length_temporaryName (name : Name) {n : Nat} (hn : n < 62 ^ 6) :
    (temporaryName name n).length = name.length + 12 := by
  have htail : (utf8 ".tmp").length = 4 := by decide
  simp only [temporaryName, List.length_append, List.length_cons, htail, length_token hn]

/-- A temporary name tells which name it was made for. -/
theorem eq_of_temporaryName_eq {name name' : Name} {n n' : Nat}
    (h : temporaryName name n = temporaryName name' n') : name = name' ∧ n = n' := by
  rw [temporaryName, temporaryName] at h
  have hfront := (List.cons.inj (List.append_cancel_right h)).2
  -- the last dot is the one before the token, which holds none
  have hdot : ∀ m, (46 : UInt8) ∉ token m := by
    intro m hmem
    have halphabet : (46 : UInt8) ∉ tokenAlphabet := by decide
    exact halphabet (mem_tokenAlphabet_of_mem hmem)
  have htoken : ∀ (name : Name) (m : Nat),
      (name ++ 46 :: token m).reverse.takeWhile (· != 46) = (token m).reverse := by
    intro name m
    rw [List.reverse_append, List.reverse_cons, List.append_assoc, List.takeWhile_append_of_pos]
    · simp
    · intro c hc
      have hne : c ≠ 46 := fun e => hdot m (e ▸ List.mem_reverse.1 hc)
      simpa using hne
  have htokens := htoken name n
  change name ++ 46 :: token n = name' ++ 46 :: token n' at hfront
  rw [hfront, htoken name' n', List.reverse_inj] at htokens
  rw [htokens] at hfront
  exact ⟨List.append_cancel_right hfront, (token_injective htokens).symm⟩

theorem temporaryName_injective (name : Name) : Function.Injective (temporaryName name) := by
  intro n m h
  rw [temporaryName, temporaryName] at h
  have htokens := List.append_cancel_left (List.append_cancel_right h)
  exact token_injective (List.cons.inj htokens).2

theorem length_lt_temporaryName (name : Name) (n : Nat) :
    name.length + 2 < (temporaryName name n).length := by
  have htail : (utf8 ".tmp").length = 4 := by decide
  rw [temporaryName, List.length_append, List.length_append, List.length_cons, List.length_cons, htail]
  omega

/-- A temporary name can stand in a directory. -/
theorem isProperName_temporaryName (h : slash ∉ name) : IsProperName (temporaryName name n) := by
  have hlong := length_lt_temporaryName name n
  refine ⟨?_, ?_, ?_, ?_⟩
  · intro e
    rw [e] at hlong
    exact absurd hlong (by simp)
  · intro e
    rw [e] at hlong
    exact absurd hlong (by simp [dotName])
  · intro e
    rw [e] at hlong
    exact absurd hlong (by simp [dotDotName])
  · intro hslash
    have halphabet : slash ∉ tokenAlphabet := by decide
    have htail : slash ∉ utf8 ".tmp" := by decide
    rw [temporaryName] at hslash
    rcases List.mem_append.1 hslash with hfront | hend
    · rcases List.mem_append.1 hfront with hname | htoken
      · rcases List.mem_cons.1 hname with hdot | hname
        · exact absurd hdot (by decide)
        · exact h hname
      · rcases List.mem_cons.1 htoken with hdot | htoken
        · exact absurd hdot (by decide)
        · exact halphabet (mem_tokenAlphabet_of_mem htoken)
    · exact htail hend

theorem contains_temporaryName {name : Name} (h : name.contains 0 = false) (n : Nat) :
    (temporaryName name n).contains 0 = false := by
  have halphabet : (0 : UInt8) ∉ tokenAlphabet := by decide
  have htail : (utf8 ".tmp").contains 0 = false := by decide
  have htoken : (token n).contains 0 = false := by
    rw [← Bool.not_eq_true, List.contains_iff_mem]
    exact fun hmem => halphabet (mem_tokenAlphabet_of_mem hmem)
  simp only [temporaryName, List.contains_append, List.contains_cons, h, htoken, htail]
  decide

/-! ## A free name -/

/-- The name for a new temporary file is one of the temporary names. -/
theorem exists_freshName_eq (fs : FileSystem) (base : RealPath) (name : Name) :
    ∃ n, fs.freshName base name = temporaryName name n := ⟨_, rfl⟩

theorem mem_nodes_of_get? {fs : FileSystem} {p : RealPath} (h : (fs.get? p).isSome = true) :
    p ∈ fs.nodes.map Prod.fst := by
  obtain ⟨x, hx⟩ := List.lookup_isSome_iff.1 h
  exact List.mem_map.2 ⟨x, hx.1, (eq_of_beq hx.2).symm⟩

/-- Not all candidates for a temporary name are taken. -/
theorem exists_find_free (fs : FileSystem) (base : RealPath) (name : Name) :
    ∃ n, (List.range (fs.nodes.length + 1)).find?
      (fun n => !(fs.get? (base ++ [temporaryName name n])).isSome) = some n := by
  let place (n : Nat) : RealPath := base ++ [temporaryName name n]
  have hinj : Function.Injective place := fun n m h =>
    temporaryName_injective name (List.singleton_inj.1 (List.append_cancel_left h))
  by_contra hnone
  -- more candidates than nodes cannot all be taken
  have hall : ∀ n ∈ List.range (fs.nodes.length + 1), place n ∈ fs.nodes.map Prod.fst := by
    intro n hn
    refine mem_nodes_of_get? ?_
    by_contra hfree
    have hcandidate : (!(fs.get? (place n)).isSome) = true := by simpa using hfree
    exact hnone (Option.isSome_iff_exists.1 (List.find?_isSome.2 ⟨n, hn, hcandidate⟩))
  have hsub : (List.range (fs.nodes.length + 1)).map place ⊆ fs.nodes.map Prod.fst := by
    intro q hq
    obtain ⟨n, hn, rfl⟩ := List.mem_map.1 hq
    exact hall n hn
  have hlength := ((List.Nodup.map hinj List.nodup_range).subperm hsub).length_le
  simp only [List.length_map, List.length_range] at hlength
  omega

/-- The name for a new temporary file is the first that is free. -/
theorem exists_freshName_eq_first (fs : FileSystem) (base : RealPath) (name : Name) :
    ∃ n, fs.freshName base name = temporaryName name n ∧
      fs.get? (base ++ [temporaryName name n]) = none ∧
      ∀ m < n, fs.get? (base ++ [temporaryName name m]) ≠ none := by
  obtain ⟨n, hfind⟩ := exists_find_free fs base name
  obtain ⟨hfree, -, hbefore⟩ := List.find?_range_eq_some.1 hfind
  refine ⟨n, congrArg (fun o : Option Nat => temporaryName name (o.getD 0)) hfind, by simpa using hfree, ?_⟩
  intro m hm
  have htaken := hbefore m hm
  intro hnone
  simp [hnone] at htaken

/-- Nothing stands under the name for a new temporary file. -/
theorem get?_freshName (fs : FileSystem) (base : RealPath) (name : Name) :
    fs.get? (base ++ [fs.freshName base name]) = none := by
  obtain ⟨n, hn, hfree, -⟩ := exists_freshName_eq_first fs base name
  rw [hn, hfree]

/-- Where one of the usual tokens is free, the name for a new temporary file has one. -/
theorem length_freshName {fs : FileSystem} {base : RealPath} {name : Name} {m : Nat} (hm : m < 62 ^ 6)
    (hfree : fs.get? (base ++ [temporaryName name m]) = none) :
    (fs.freshName base name).length = name.length + 12 := by
  obtain ⟨n, hn, -, hbefore⟩ := exists_freshName_eq_first fs base name
  have hle : n ≤ m := by
    by_contra hlt
    exact hbefore m (Nat.not_le.1 hlt) hfree
  rw [hn, length_temporaryName name (Nat.lt_of_le_of_lt hle hm)]

end FileSystem

end TreeImage
