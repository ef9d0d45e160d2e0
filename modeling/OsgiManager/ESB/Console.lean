import OsgiManager.Lib.Bytes

namespace OsgiManager.ESB

open OsgiManager.Lib

/-!
# The console commands

The four format strings of `console_commands.h`.  The monitor uses them both as formats and
as the values of its protocol variable `lastCommandStr`.
-/

/-- `GOGO_LIST`. -/
def gogoList : Bytes := ofString "client -h 127.0.0.1 -u %s -p %s \"list -l |grep file:/\""

/-- `GOGO_GET_SYSTEM_INFO`. -/
def gogoGetSystemInfo : Bytes := ofString "client -h 127.0.0.1 -u %s -p %s info"

/-- `GOGO_START_BUNDLE`. -/
def gogoStartBundle : Bytes := ofString "client -h 127.0.0.1 -u %s -p %s \"start %s\""

/-- `GOGO_STOP_BUNDLE`. -/
def gogoStopBundle : Bytes := ofString "client -h 127.0.0.1 -u %s -p %s \"stop %s\""

end OsgiManager.ESB
