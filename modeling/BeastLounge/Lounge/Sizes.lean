import BeastLounge.Blackjack.Bounds
import BeastLounge.Json.Text
import BeastLounge.Lounge.Rules
import BeastLounge.Server.Shutdown

/-!
# The sizes of what the server sends

What is made of the server's own texts, of names of at most 20 bytes and of a game in order is far
smaller than 16384 bytes, however the names are escaped. The size of a say notice is that of the
text and the names in it and a constant, and so is the size of a reply that of the id and a constant.
-/

namespace BeastLounge.Lounge

open Theory Json Rpc

variable {text : Value → String} (htext : Compact text)

include htext

/-! ### Words -/

/-- The keys and the words in the server's messages need no escapes. -/
theorem size_words :
    (text (.string "cid")).utf8ByteSize = 5 ∧ (text (.string "verb")).utf8ByteSize = 6 ∧
    (text (.string "name")).utf8ByteSize = 6 ∧ (text (.string "user")).utf8ByteSize = 6 ∧
    (text (.string "message")).utf8ByteSize = 9 ∧ (text (.string "action")).utf8ByteSize = 8 ∧
    (text (.string "game")).utf8ByteSize = 6 ∧ (text (.string "seats")).utf8ByteSize = 7 ∧
    (text (.string "hands")).utf8ByteSize = 7 ∧ (text (.string "state")).utf8ByteSize = 7 ∧
    (text (.string "chips")).utf8ByteSize = 7 ∧ (text (.string "wager")).utf8ByteSize = 7 ∧
    (text (.string "jsonrpc")).utf8ByteSize = 9 ∧ (text (.string "error")).utf8ByteSize = 7 ∧
    (text (.string "code")).utf8ByteSize = 6 ∧ (text (.string "id")).utf8ByteSize = 4 ∧
    (text (.string "result")).utf8ByteSize = 8 ∧ (text (.string "2.0")).utf8ByteSize = 5 ∧
    (text (.string "say")).utf8ByteSize = 5 ∧ (text (.string "update")).utf8ByteSize = 8 ∧
    (text (.string "System")).utf8ByteSize = 8 ∧ (text (.string "dealer")).utf8ByteSize = 8 ∧
    (text (.string "open")).utf8ByteSize = 6 ∧ (text (.string "waiting")).utf8ByteSize = 9 ∧
    (text (.string "playing")).utf8ByteSize = 9 ∧ (text (.string "leaving")).utf8ByteSize = 9 := by
  and_intros
  all_goals exact size_plain htext (by decide)

/-! ### Notices and updates -/

theorem size_notice_le {c : Channel} {verb name : String} (hc : Known c)
    (hverb : verb.utf8ByteSize ≤ 5) (hname : name.utf8ByteSize ≤ 20) :
    (text (c.notice verb name)).utf8ByteSize ≤ 250 := by
  have hcid : (text (.number (.int c.cid))).utf8ByteSize ≤ 2 := by
    rcases hc with rfl | rfl | rfl <;> exact size_int_le htext (by decide) (by decide)
  have hchannel : c.name.utf8ByteSize ≤ 9 := by
    rcases hc with rfl | rfl | rfl <;> decide
  have hverb := htext.string_le verb
  have hname := htext.string_le name
  have hchannel := htext.string_le c.name
  simp only [Channel.notice, size_object htext, size_members_cons, size_members_single, size_words htext]
  omega

theorem size_handJson_le {h : Blackjack.Hand} (hcard : ∀ c ∈ h.cards.chars, c ≤ 52) :
    (text (handJson h)).utf8ByteSize ≤ 90 := by
  have helems : ∀ v ∈ h.cards.chars.map fun c : Nat => Value.number (.int c),
      (text v).utf8ByteSize ≤ 3 := by
    intro v hv
    obtain ⟨c, hc, rfl⟩ := List.mem_map.mp hv
    have := hcard c hc
    exact size_int_le htext (by decide) (by omega)
  have hsize := size_array_le htext helems
  have hlen := h.cards.length_le
  rw [List.length_map] at hsize
  unfold handJson
  omega

theorem size_seatJson_le {s : Blackjack.Seat} {name : String} (hs : s.Bounded)
    (hname : s.user ≠ none → name.utf8ByteSize ≤ 20) :
    (text (seatJson s name)).utf8ByteSize ≤ 350 := by
  have hhands : (text (.array [handJson s.hand])).utf8ByteSize ≤ 93 := by
    refine le_trans (size_array_le htext (n := 90) fun v hv => ?_) (by simp)
    rw [List.mem_singleton.mp hv]
    exact size_handJson_le htext hs.card
  have hchips : (text (.number (.int s.chips))).utf8ByteSize ≤ 11 :=
    size_int_le htext (by decide) (lt_of_le_of_lt hs.chips (by decide))
  have hwager : (text (.number (.int s.wager))).utf8ByteSize ≤ 11 :=
    size_int_le htext (by decide) (lt_of_le_of_lt hs.wager (by decide))
  have hescape := htext.string_le name
  unfold Blackjack.Seat.user at hname
  unfold seatJson
  cases hstate : s.state <;> rw [hstate] at hname <;>
    simp only [size_object htext, size_members_cons, size_members_single, size_words htext]
  case dealer => omega
  case opened => omega
  all_goals
    have := hname (by simp [Blackjack.SeatState.user])
    omega

omit htext in
/-- The games that `game::to_json` produces from games in order. -/
def SentGame (g : Value) : Prop :=
  GameShape (fun seats => seats.length = 6 ∧ ∀ s ∈ seats, s.Bounded) (·.utf8ByteSize ≤ 20) g

theorem size_sentGame_le {g : Value} (h : SentGame g) : (text g).utf8ByteSize ≤ 2300 := by
  obtain ⟨state, seats, vs, ⟨hlen, hseats⟩, hvs, rfl⟩ := h
  have helems : ∀ v ∈ vs, (text v).utf8ByteSize ≤ 350 := by
    intro v hv
    obtain ⟨i, hi⟩ := List.mem_iff_getElem?.mp hv
    obtain ⟨s, hs, name, hname, rfl⟩ : ∃ s ∈ seats, ∃ name,
        (s.user ≠ none → name.utf8ByteSize ≤ 20) ∧ v = seatJson s name := by
      clear hlen hi
      induction hvs with
      | nil => cases hv
      | @cons s j ss js hj hrest ih =>
        rcases List.mem_cons.mp hv with rfl | hv
        · exact ⟨s, by simp, hj⟩
        · obtain ⟨s', hs', h'⟩ := ih (fun s hs => hseats s (by simp [hs])) hv
          exact ⟨s', by simp [hs'], h'⟩
    exact size_seatJson_le htext (hseats s hs) hname
  have hsize := size_array_le htext helems
  have hlength : vs.length = 6 := hvs.length_eq ▸ hlen
  have hstate : (stateMessage state).utf8ByteSize ≤ 23 := by cases state <;> decide
  have hescape := htext.string_le (stateMessage state)
  simp only [size_object htext, size_members_cons, size_members_single, size_words htext]
  omega

theorem size_updateJson_le {action : String} {g : Value} (haction : action.utf8ByteSize ≤ 9)
    (h : SentGame g) : (text (updateJson action g)).utf8ByteSize ≤ 2450 := by
  have hgame := size_sentGame_le htext h
  have hcid : (text (.number (.int table.cid))).utf8ByteSize ≤ 2 :=
    size_int_le htext (by decide) (by decide)
  have hescape := htext.string_le action
  simp only [updateJson, size_object htext, size_members_cons, size_members_single, size_words htext]
  omega

theorem size_shutdownNotice_le {remain : Int} (h : remain.natAbs < 10 ^ 19) :
    (text (Server.shutdownNotice remain)).utf8ByteSize ≤ 450 := by
  have hcid : (text (.number (.int 1))).utf8ByteSize ≤ 2 := size_int_le htext (by decide) (by decide)
  have hparts : ("Server is shutting down in " : String).utf8ByteSize = 27 ∧
      (" seconds" : String).utf8ByteSize = 8 := by decide
  have hremain := size_toString_le (k := 19) (by decide) h
  have hescape := htext.string_le ("Server is shutting down in " ++ toString remain ++ " seconds")
  rw [String.utf8ByteSize_append, String.utf8ByteSize_append] at hescape
  simp only [Server.shutdownNotice, size_object htext, size_members_cons, size_members_single,
    size_words htext]
  omega

/-! ### Say notices and replies -/

theorem size_sayNotice (c : Channel) (name said : String) :
    (text (sayNotice c name said)).utf8ByteSize =
      (text (.string said)).utf8ByteSize + (text (.string name)).utf8ByteSize +
        (text (.string c.name)).utf8ByteSize + (text (.number (.int c.cid))).utf8ByteSize + 48 := by
  simp only [sayNotice, size_object htext, size_members_cons, size_members_single, size_words htext]
  omega

theorem size_result (id result : Value) :
    (text (.object [("id", id), ("result", result)])).utf8ByteSize =
      (text id).utf8ByteSize + (text result).utf8ByteSize + 17 := by
  simp only [size_object htext, size_members_cons, size_members_single, size_words htext]
  omega

theorem size_error (e : RpcError) (id : Value) :
    (text (e.toJson (some id))).utf8ByteSize =
      (text id).utf8ByteSize + (text (.number (.int e.code))).utf8ByteSize +
        (text (.string e.msg)).utf8ByteSize + 52 := by
  simp only [RpcError.toJson, Option.toList_some, List.map_cons, List.map_nil, List.cons_append,
    List.nil_append, size_object htext, size_members_cons, size_members_single, size_words htext]
  omega

end BeastLounge.Lounge
