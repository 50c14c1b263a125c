import StateDiagram.Proofs.Lexeme
import StateDiagram.Proofs.Places

namespace StateDiagram

open Recognizer Text

variable {cs taken rest : List Char} {text : String} {token : Token} {offset : Nat}

def Text.Quoted (cs : List Char) : Prop := ∃ inside, cs = '\x22' :: (inside ++ ['\x22'])

namespace Lexeme

theorem quoted_stringLiteral (h : Takes stringLiteral taken rest) : Quoted taken := by
  rcases takes_orElse.1 h with h | ⟨_, h⟩
  · obtain ⟨_, back, rfl, hf, hb⟩ := takes_andThen.1 h
    obtain rfl := takes_literal.1 hf
    obtain ⟨body, rfl⟩ := hb.exists_body (List.cons_ne_nil _ _)
    exact ⟨['\x22', '\x22'] ++ body ++ ['\x22', '\x22'], by simp [rawQuotes]⟩
  · obtain ⟨_, back, rfl, hf, hb⟩ := takes_andThen.1 h
    obtain ⟨body, _, rfl, _, hq⟩ := takes_andThen.1 hb
    obtain rfl := takes_literal.1 hf
    obtain rfl := takes_literal.1 hq
    exact ⟨body, rfl⟩

theorem quoted_ofFront {c : Char} (h : (ofFront c cs).1 = .string text) : Quoted text.toList := by
  obtain ⟨rest, ht⟩ := takes_ofFront c cs
  rw [h] at ht
  exact quoted_stringLiteral ht

end Lexeme

theorem dropWhile_backQuote (h : '\x60' ∉ cs) : cs.dropWhile (· == '\x60') = cs := by
  cases cs with
  | nil => rfl
  | cons c cs =>
    rw [List.dropWhile_cons_of_neg]
    rw [beq_iff_eq]
    rintro rfl
    exact h List.mem_cons_self

theorem bareName_of_not_mem (h : '\x60' ∉ text.toList) : bareName text = text := by
  rw [bareName, dropWhile_backQuote h,
    dropWhile_backQuote (fun hm => h (List.mem_reverse.1 hm)), List.reverse_reverse,
    String.ofList_toList]

theorem bareName_quoted (h : '\x60' ∉ cs) :
    bareName (String.ofList ('\x60' :: (cs ++ ['\x60']))) = String.ofList cs := by
  rw [bareName, String.toList_ofList, List.dropWhile_cons_of_pos (by decide)]
  cases cs with
  | nil => rfl
  | cons c cs =>
    have hc : '\x60' ≠ c := fun he => h (he ▸ List.mem_cons_self)
    have hfront : (c :: cs ++ ['\x60']).dropWhile (· == '\x60') = c :: cs ++ ['\x60'] := by
      rw [List.cons_append, List.dropWhile_cons_of_neg]
      rw [beq_iff_eq]
      exact hc.symm
    rw [hfront, List.reverse_append, List.reverse_singleton, List.singleton_append,
      List.dropWhile_cons_of_pos (by decide),
      dropWhile_backQuote (fun hm => h (List.mem_reverse.1 hm)), List.reverse_reverse]

namespace Lexeme

theorem backQuote_not_mem_name (h : Takes (quotedName.orElse plainName) taken rest) :
    '\x60' ∉ (bareName (String.ofList taken)).toList := by
  rcases takes_orElse.1 h with h | ⟨_, h⟩
  · obtain ⟨_, back, rfl, hf, hb⟩ := takes_andThen.1 h
    obtain ⟨body, _, rfl, hr, hq⟩ := takes_andThen.1 hb
    obtain rfl := takes_literal.1 hf
    obtain rfl := takes_literal.1 hq
    have hbody : '\x60' ∉ body := Avoids.run (by decide) _ _ hr
    rwa [List.singleton_append, bareName_quoted hbody, String.toList_ofList]
  · have havoids : Avoids '\x60' plainName := (Avoids.one (by decide)).andThen (.run (by decide))
    have htaken : '\x60' ∉ (String.ofList taken).toList := by
      rw [String.toList_ofList]
      exact havoids _ _ h
    rwa [bareName_of_not_mem htaken]

theorem backQuote_not_mem_ofFront {c : Char} (h : (ofFront c cs).1 = .identifier text) :
    '\x60' ∉ (bareName text).toList := by
  obtain ⟨rest, ht⟩ := takes_ofFront c cs
  rw [h] at ht
  have hn := backQuote_not_mem_name ht
  rwa [Lexeme.text, String.ofList_toList] at hn

end Lexeme

/-- Every token is the first one of some text. -/
theorem Token.exists_ofFront (hm : token ∈ Token.scan offset cs) :
    ∃ c rest, (Lexeme.ofFront c rest).1 = token.lexeme := by
  fun_induction Token.scan offset cs with
  | case1 => cases hm
  | case2 offset cs gap c rest h lexeme start stop ih =>
    rcases List.mem_cons.1 hm with rfl | hm
    · exact ⟨c, rest, rfl⟩
    · exact ih hm

theorem Token.quoted_scan (hm : token ∈ Token.scan offset cs) (ht : token.lexeme = .string text) :
    Quoted text.toList := by
  obtain ⟨c, rest, hf⟩ := exists_ofFront hm
  exact Lexeme.quoted_ofFront (hf.trans ht)

theorem Token.bare_scan (hm : token ∈ Token.scan offset cs)
    (ht : token.lexeme = .identifier text) : '\x60' ∉ (bareName text).toList := by
  obtain ⟨c, rest, hf⟩ := exists_ofFront hm
  exact Lexeme.backQuote_not_mem_ofFront (hf.trans ht)

namespace Text

theorem length_le_byteSize (cs : List Char) : cs.length ≤ byteSize cs := by
  induction cs with
  | nil => exact Nat.le_refl _
  | cons c cs ih =>
    have := c.utf8Size_pos
    rw [List.length_cons, byteSize_cons]
    omega

/-- Between two runs of three quotes there are six quotes if there are six bytes. -/
theorem six_le_length (hp : Lexeme.rawQuotes <+: cs) (hs : Lexeme.rawQuotes <:+ cs)
    (h : 6 ≤ byteSize cs) : 6 ≤ cs.length := by
  by_contra hlt
  obtain ⟨behind, rfl⟩ := hp
  rw [List.length_append] at hlt
  have hthree : Lexeme.rawQuotes.length = 3 := rfl
  have hsize : byteSize Lexeme.rawQuotes = 3 := rfl
  have hle : behind.length ≤ Lexeme.rawQuotes.length := by omega
  obtain ⟨front, hfront⟩ :=
    List.suffix_of_suffix_length_le (List.suffix_append Lexeme.rawQuotes behind) hs hle
  have hlength := congrArg List.length hfront
  have hbytes := congrArg byteSize hfront
  have := length_le_byteSize front
  rw [byteSize_append] at h hbytes
  rw [List.length_append] at hlength
  omega

/-- What stands between two texts, by bytes and by characters. -/
theorem slice?_between (before inside after : List Char) :
    slice? (byteSize before) (byteSize (before ++ (inside ++ after)) - byteSize after)
        (before ++ (inside ++ after)) = some inside ∧
      ((before ++ (inside ++ after)).drop before.length).take
        ((before ++ (inside ++ after)).length - (before.length + after.length)) = inside := by
  have hs : byteSize (before ++ (inside ++ after)) - byteSize after =
      byteSize before + byteSize inside := by
    rw [byteSize_append, byteSize_append]
    omega
  have hl : (before ++ (inside ++ after)).length - (before.length + after.length) =
      inside.length := by
    rw [List.length_append, List.length_append]
    omega
  rw [hs, hl, List.drop_left, List.take_left]
  exact ⟨slice?_append before inside after, rfl⟩

theorem content?_eq (h : Quoted cs) :
    content? cs = some (stringContent (String.ofList cs)).toList := by
  have hquotes : ['\x22', '\x22', '\x22'] = Lexeme.rawQuotes := rfl
  simp only [content?, stringContent, String.toList_ofList, List.isPrefixOf_iff_prefix,
    List.isSuffixOf_iff_suffix, hquotes]
  by_cases hraw : 6 ≤ byteSize cs ∧ Lexeme.rawQuotes <+: cs ∧ Lexeme.rawQuotes <:+ cs
  · have hsix := six_le_length hraw.2.1 hraw.2.2 hraw.1
    have hchars : 6 ≤ cs.length ∧ Lexeme.rawQuotes <+: cs ∧ Lexeme.rawQuotes <:+ cs :=
      ⟨hsix, hraw.2⟩
    obtain ⟨⟨behind, rfl⟩, hs⟩ := hraw.2
    have hle : Lexeme.rawQuotes.length ≤ behind.length := by
      rw [List.length_append] at hsix
      have hthree : Lexeme.rawQuotes.length = 3 := rfl
      omega
    obtain ⟨inside, rfl⟩ :=
      List.suffix_of_suffix_length_le hs (List.suffix_append Lexeme.rawQuotes behind) hle
    obtain ⟨hbytes, htake⟩ := slice?_between Lexeme.rawQuotes inside Lexeme.rawQuotes
    rw [if_pos hraw, if_pos hchars]
    exact hbytes.trans (congrArg some htake.symm)
  · have hchars : ¬ (6 ≤ cs.length ∧ Lexeme.rawQuotes <+: cs ∧ Lexeme.rawQuotes <:+ cs) :=
      fun hc => hraw ⟨Nat.le_trans hc.1 (length_le_byteSize cs), hc.2⟩
    obtain ⟨inside, rfl⟩ := h
    have htwo : 2 ≤ byteSize ('\x22' :: (inside ++ ['\x22'])) := by
      have hone : ('\x22').utf8Size = 1 := rfl
      simp only [byteSize_cons, byteSize_append, hone]
      omega
    obtain ⟨hbytes, htake⟩ := slice?_between ['\x22'] inside ['\x22']
    rw [if_neg hraw, if_neg hchars, if_pos htwo]
    exact hbytes.trans (congrArg some htake.symm)

end Text

end StateDiagram
