import Monkey.Stream

/-!
Streams. What a sink stores depends on how much room it has left and on nothing that it holds
already; an input is cut into the lines that it was put together from.
-/

namespace Monkey

namespace Sink

def append (s : Sink) (w : ByteArray) : Sink := { s with bytes := s.bytes ++ w }

def room (s : Sink) : Option Nat := s.limit.map (· - s.bytes.size)

@[simp] theorem append_empty (s : Sink) : s.append .empty = s := by
  simp [append]

theorem append_append (s : Sink) (v w : ByteArray) : (s.append v).append w = s.append (v ++ w) := by
  simp [append, ByteArray.append_assoc]

theorem room_append (s : Sink) (w : ByteArray) : (s.append w).room = s.room.map (· - w.size) := by
  cases hlimit : s.limit with
  | none => simp [room, append, hlimit]
  | some limit => simp [room, append, hlimit, Nat.sub_sub]

theorem write_of_room_none {s : Sink} (h : s.room = none) (text : String) :
    s.write text = (true, s.append text.toUTF8) := by
  cases hlimit : s.limit with
  | none => simp [write, append, hlimit]
  | some limit => simp [room, hlimit] at h

theorem write_of_room_some {s : Sink} {k : Nat} (h : s.room = some k) (text : String) :
    s.write text = (decide (text.toUTF8.size ≤ k), s.append (text.toUTF8.extract 0 k)) := by
  cases hlimit : s.limit with
  | none => simp [room, hlimit] at h
  | some limit =>
    have hk : limit - s.bytes.size = k := by simpa [room, hlimit] using h
    simp [write, append, hlimit, hk]

theorem write_append {s s' : Sink} (h : s.room = s'.room) (w : ByteArray) (text : String) :
    ∃ fits v, (s.append w).write text = (fits, s.append v) ∧
      (s'.append w).write text = (fits, s'.append v) := by
  have hroom : (s.append w).room = (s'.append w).room := by rw [room_append, room_append, h]
  cases hr : (s.append w).room with
  | none =>
    refine ⟨true, w ++ text.toUTF8, ?_, ?_⟩
    · rw [write_of_room_none hr, append_append]
    · rw [write_of_room_none (hroom.symm.trans hr), append_append]
  | some k =>
    refine ⟨decide (text.toUTF8.size ≤ k), w ++ text.toUTF8.extract 0 k, ?_, ?_⟩
    · rw [write_of_room_some hr, append_append]
    · rw [write_of_room_some (hroom.symm.trans hr), append_append]

end Sink

def utf8 (text : String) : List UInt8 := text.toUTF8.data.toList

/-- A text with one line feed, at its end. -/
def IsLine (line : String) : Prop := ∃ body, '\n' ∉ body ∧ line.toList = body ++ ['\n']

theorem utf8_eq_flatMap (text : String) : utf8 text = text.toList.flatMap String.utf8EncodeChar := by
  have hbytes : text.toUTF8 = (text.toList.flatMap String.utf8EncodeChar).toByteArray :=
    String.utf8Encode_toList.symm
  rw [utf8, hbytes, List.data_toByteArray]

theorem utf8_append (a b : String) : utf8 (a ++ b) = utf8 a ++ utf8 b := by
  simp only [utf8_eq_flatMap, String.toList_append, List.flatMap_append]

theorem decodeUtf8?_utf8 (text : String) : decodeUtf8? (utf8 text) = some text := by
  have hbytes : (⟨(utf8 text).toArray⟩ : ByteArray) = text.toByteArray := rfl
  rw [decodeUtf8?, hbytes, String.fromUTF8?, dif_pos text.isValidUTF8]
  rfl

/-- The line feed is the only character with its byte in it. -/
theorem line_feed_notMem {c : Char} (h : c ≠ '\n') : 10 ∉ String.utf8EncodeChar c := by
  have byte {k : Nat} (hk : k < 256) (hne : k ≠ 10) : (10 : UInt8) ≠ UInt8.ofNat k := by
    intro heq
    have hnat := congrArg UInt8.toNat heq
    rw [UInt8.toNat_ofNat', Nat.mod_eq_of_lt hk] at hnat
    exact hne hnat.symm
  have hval : c.val.toNat ≠ 10 := by
    intro hc
    exact h (Char.ext (UInt32.toNat_inj.mp hc))
  -- All bytes of a longer code are 128 or more.
  simp only [String.utf8EncodeChar]
  split
  · simpa using byte (by omega) hval
  split
  · simp only [List.mem_cons, List.not_mem_nil, or_false, not_or]
    exact ⟨byte (by omega) (by omega), byte (by omega) (by omega)⟩
  split
  · simp only [List.mem_cons, List.not_mem_nil, or_false, not_or]
    exact ⟨byte (by omega) (by omega), byte (by omega) (by omega), byte (by omega) (by omega)⟩
  · simp only [List.mem_cons, List.not_mem_nil, or_false, not_or]
    exact ⟨byte (by omega) (by omega), byte (by omega) (by omega), byte (by omega) (by omega),
      byte (by omega) (by omega)⟩

theorem splitLines_append {body : List UInt8} (h : 10 ∉ body) (rest : List UInt8) :
    splitLines (body ++ 10 :: rest) = (body ++ [10]) :: splitLines rest := by
  induction body with
  | nil => rfl
  | cons b body ih =>
    have hb : b ≠ 10 := fun hb => h (hb ▸ List.mem_cons_self)
    have hbody : 10 ∉ body := fun hmem => h (List.mem_cons_of_mem b hmem)
    rw [List.cons_append, splitLines, if_neg hb, ih hbody]
    rfl

theorem splitLines_ne_nil {bytes : List UInt8} (h : bytes ≠ []) : splitLines bytes ≠ [] := by
  cases bytes with
  | nil => exact absurd rfl h
  | cons b bytes =>
    rw [splitLines]
    by_cases hb : b = 10
    · simp [hb]
    · rw [if_neg hb]
      cases splitLines bytes with
      | nil => simp
      | cons line lines => simp

/-- The lines up to a line feed do not depend on what follows it. -/
theorem splitLines_append_line_feed (front rest : List UInt8) :
    splitLines (front ++ 10 :: rest) = splitLines (front ++ [10]) ++ splitLines rest := by
  induction front with
  | nil => rfl
  | cons b front ih =>
    have hfirst : splitLines (front ++ [10]) ≠ [] := splitLines_ne_nil (by simp)
    simp only [List.cons_append, splitLines, ih]
    by_cases hb : b = 10
    · rw [if_pos hb, if_pos hb, List.cons_append]
    · rw [if_neg hb, if_neg hb]
      rcases h : splitLines (front ++ [10]) with _ | ⟨line, lines⟩
      · exact absurd h hfirst
      · rfl

/-- Empty, or with a line feed at its end. -/
def EndsLine (text : String) : Prop := ∀ c ∈ text.toList.getLast?, c = '\n'

instance (text : String) : Decidable (EndsLine text) :=
  decidable_of_iff (text.toList.getLast?.all (· == '\n') = true) (by
    simp only [EndsLine, Option.all_eq_true, Option.mem_def, beq_iff_eq])

theorem EndsLine.splitLines_append {a : String} (h : EndsLine a) (b : String) :
    splitLines (Monkey.utf8 (a ++ b)) =
      splitLines (Monkey.utf8 a) ++ splitLines (Monkey.utf8 b) := by
  rw [utf8_append]
  rcases List.eq_nil_or_concat a.toList with hnil | ⟨front, c, hfront⟩
  · rw [utf8_eq_flatMap a, hnil]
    rfl
  · obtain rfl : c = '\n' := h c (by simp [hfront])
    have ha : Monkey.utf8 a = front.flatMap String.utf8EncodeChar ++ [10] := by
      rw [utf8_eq_flatMap, hfront, List.concat_eq_append, List.flatMap_append]
      rfl
    rw [ha, List.append_assoc, List.singleton_append, splitLines_append_line_feed]

theorem IsLine.utf8 {line : String} (h : IsLine line) :
    ∃ body, 10 ∉ body ∧ utf8 line = body ++ [10] := by
  obtain ⟨body, hbody, hline⟩ := h
  refine ⟨body.flatMap String.utf8EncodeChar, ?_, ?_⟩
  · rw [List.mem_flatMap]
    rintro ⟨c, hc, hmem⟩
    exact line_feed_notMem (ne_of_mem_of_not_mem hc hbody) hmem
  · rw [utf8_eq_flatMap, hline, List.flatMap_append]
    rfl

theorem splitLines_join {lines : List String} (h : ∀ line ∈ lines, IsLine line) :
    splitLines (utf8 (String.join lines)) = lines.map utf8 := by
  induction lines with
  | nil => rfl
  | cons line lines ih =>
    obtain ⟨hline, hlines⟩ := List.forall_mem_cons.mp h
    obtain ⟨body, hbody, hbytes⟩ := hline.utf8
    rw [String.join_cons, utf8_append, hbytes, List.append_assoc, List.singleton_append,
      splitLines_append hbody, ih hlines, List.map_cons, hbytes]

end Monkey
