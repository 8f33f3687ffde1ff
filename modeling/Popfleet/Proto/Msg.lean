import Mathlib.Data.List.Basic

namespace Proto

-- A single JSON text frame on /ws/agent or /ws/term. One struct covers every frame, unknown tags are
-- ignored by all sides.
structure Msg where
  t     : String
  token : String := ""
  name  : String := ""
  ver   : String := ""
  e2e   : Bool := false
  id    : String := ""
  sid   : String := ""
  data  : String := ""
  cmd   : String := ""
  code  : Option Int := none
  c     : Int := 0
  r     : Int := 0
  msg   : String := ""
  deriving DecidableEq

end Proto
