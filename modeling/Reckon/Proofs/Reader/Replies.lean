import Reckon.Proofs.Grammar.Beginning
import Reckon.Proofs.Reader.Taking

namespace Reckon

/-- Why the phrase begun with the tokens `ts` breaks off, where `t` is in view and `c` is the place
behind it. A token that cannot be taken because of what comes behind it still belongs to the phrase. -/
inductive Halts (limit : Nat) (phrase : Level) (room : Nat) (ts : List Token) (t : Token) (c : Cursor) :
    SyntaxError → Prop where
  | unexpected {w : Missing} (begun : Begins phrase room ts w) (missing : w ≠ .nothing)
      (refused : w.Refuses t.kind) : Halts limit phrase room ts t c (.unexpected w.kind t)
  | tooDeep (begun : Begins phrase room ts (.operand 0)) : Halts limit phrase room ts t c (.tooDeep limit t.pos)
  | unreadable {w : Missing} {cause : Unreadable} {place : Cursor} (begun : Begins phrase room (ts ++ [t]) w)
      (torn : c.next = .error (cause, place)) : Halts limit phrase room ts t c (.unreadable cause)

theorem Halts.embed {limit room space : Nat} {inner outer : Level} {front ts : List Token} {t : Token}
    {c : Cursor} {e : SyntaxError} (halts : Halts limit inner room ts t c e)
    (embeds : Embeds front inner room outer space) : Halts limit outer space (front ++ ts) t c e := by
  cases halts with
  | unexpected begun missing refused => exact .unexpected (embeds.partway begun missing) missing refused
  | tooDeep begun => exact .tooDeep (embeds.partway begun (by simp))
  | @unreadable w _ _ begun torn =>
    by_cases complete : w = .nothing
    · -- A token that completes the inner phrase may leave the outer one incomplete.
      subst complete
      obtain ⟨e, derived⟩ := begun.derives
      obtain ⟨w, begun⟩ := embeds.whole derived
      rw [← List.append_assoc] at begun
      exact .unreadable begun torn
    · have begun := embeds.partway begun complete
      rw [← List.append_assoc] at begun
      exact .unreadable begun torn

section Place

variable {limit room : Nat} {phrase : Level} {ts : List Token} {t : Token} {c d stop : Cursor} {r : Reader}
  {e : SyntaxError}

theorem Halts.of_next_eq (halts : Halts limit phrase room ts t c e) (same : c.next = d.next) :
    Halts limit phrase room ts t d e := by
  cases halts with
  | unexpected begun missing refused => exact .unexpected begun missing refused
  | tooDeep begun => exact .tooDeep begun
  | unreadable begun torn => exact .unreadable begun (same.symm.trans torn)

theorem Halts.views (halts : Halts limit phrase room ts r.current r.cursor e) (views : r.Views stop) :
    (r.leftBy (.error e)).Views stop := by
  cases halts with
  | unexpected | tooDeep => exact views
  | unreadable _ torn =>
    rw [Reader.leftBy_of_torn torn]
    exact views.of_torn torn

end Place

namespace Reply

def Ends {n : Nat} (found : Expr → Reader → Prop) (halted : SyntaxError → Reader → Prop) : Reply n → Prop
  | tree e rest _ => found e rest
  | failed e rest => halted e rest

/-- A phrase of the level is found from the reader `r` on, and nothing in view makes it longer; or
reading halts in the middle of a phrase. -/
def Reports {n : Nat} (limit : Nat) (phrase : Level) (room : Nat) (r : Reader) (reply : Reply n) : Prop :=
  reply.Ends
    (fun e rest => ∃ ts, r.Takes ts rest ∧ Derives phrase room ts e ∧
      phrase.continues rest.current.kind = false)
    (fun e rest => ∃ ts last, r.Takes ts last ∧ Halts limit phrase room ts last.current last.cursor e ∧
      rest = last.leftBy (.error e))

namespace Reports

variable {limit room space m n : Nat} {inner outer : Level} {front : List Token} {p q r : Reader}

theorem weaken {reply : Reply m} (reports : reply.Reports limit outer room r) (le : m ≤ n) :
    (reply.weaken le).Reports limit outer room r := by
  cases reply with
  | tree e rest shorter => exact reports
  | failed e rest => exact reports

theorem andThen {reply : Reply m} {more : (e : Expr) → (rest : Reader) → rest.size < m → Reply n}
    (reports : reply.Reports limit inner room p) (taken : q.Takes front p)
    (embeds : Embeds front inner room outer space)
    (further : ∀ us e rest shorter, p.Takes us rest → Derives inner room us e →
      inner.continues rest.current.kind = false → (more e rest shorter).Reports limit outer space q) :
    (reply.andThen more).Reports limit outer space q := by
  cases reply with
  | tree e rest shorter =>
    obtain ⟨us, takes, derived, stops⟩ := reports
    exact further us e rest shorter takes derived stops
  | failed e rest =>
    obtain ⟨us, last, takes, halts, left⟩ := reports
    exact ⟨front ++ us, last, taken.append takes, halts.embed embeds, left⟩

theorem taking {kind : Kind} (real : kind ≠ .finish)
    {more : (rest : Reader) → rest.size < r.size → Reply n} (taken : q.Takes front r)
    (refused : r.current.kind ≠ kind →
      Halts limit outer space front r.current r.cursor (.unexpected kind r.current))
    (begun : r.current.kind = kind → ∃ w, Begins outer space (front ++ [r.current]) w)
    (further : ∀ p shorter, r.current.kind = kind → q.Takes (front ++ [r.current]) p → p.current.Valued →
      (more p shorter).Reports limit outer space q) :
    (r.taking kind real more).Reports limit outer space q := by
  unfold Reader.taking
  split
  · rename_i e rest fault
    unfold Reader.expect at fault
    split at fault
    · rename_i same
      obtain ⟨cause, place, rfl, torn, rfl⟩ := Reader.advance_eq_error fault
      obtain ⟨w, begun⟩ := begun same
      exact ⟨front, r, taken, .unreadable begun torn, (Reader.leftBy_of_torn torn).symm⟩
    · rename_i other
      cases fault
      exact ⟨front, r, taken, refused other, rfl⟩
  · rename_i p passed
    obtain ⟨same, advanced⟩ := Reader.expect_eq_ok_iff.mp passed
    have more : r.current.kind ≠ .finish := by rwa [same]
    exact further p _ same (taken.append (.single more advanced)) (Reader.advance_valued advanced)

theorem close {reply : Reply n}
    (reports : reply.Reports limit outer room { r with depth := r.depth + 1 }) :
    reply.close.Reports limit outer room r := by
  cases reply with
  | tree e rest shorter =>
    obtain ⟨ts, takes, derived, stops⟩ := reports
    have depth := takes.depth_eq
    refine ⟨ts, ?_, derived, stops⟩
    rw [depth]
    exact takes.atDepth r.depth
  | failed e rest =>
    obtain ⟨ts, last, takes, halts, rfl⟩ := reports
    refine ⟨ts, { last with depth := r.depth }, takes.atDepth r.depth, halts, ?_⟩
    rw [Reader.leftBy_atDepth last (.error e) r.depth, Reader.leftBy_depth, takes.depth_eq]
    rfl

end Reports

end Reply

end Reckon
